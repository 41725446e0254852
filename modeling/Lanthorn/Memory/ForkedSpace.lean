import Lanthorn.Memory.VmFork

/-!
# The address space of a forked process

The two loops of `vm_fork` as a whole. `VmFork.vmFork_forked` says that the child gets the parent's regions and
the contents of its pages, and that the parent keeps what it has. `VmFork.locks_released_iff` says when the locks
are given back: if an allocation fails, `vm_fork` returns with the lock of the parent's allocator or, where only a
table was missing, with the lock of the child's directory, which `ptb_map` has kept.
-/

namespace Lanthorn

open Function List

open Library PhysMem

namespace VmFork

/-! ### The rounds -/

/-- A parent as page faults leave it, a child without user mappings, and new pages from `page_alloc`. -/
structure Apart (s : VmFork) (allocs : ℕ → ForkAllocs) : Prop where
  parent : s.old.Inv
  child : s.EmptyChild
  pages : s.NewPages allocs

/-- The state when the regions `free` and `live` have been copied. -/
structure Copied (s₀ : VmFork) (allocs : ℕ → ForkAllocs) (free live : List ℕ) (s : VmFork) : Prop where
  descs : DescsCopied s₀ allocs free live s
  tables : TablesCopied s₀ allocs live s.ptb
  pages : s₀.Apart allocs → PagesCopied s₀ allocs live s.ptb
  parent : s.old.ptb.pde = s₀.old.ptb.pde ∧ s.old.ptb.lock = s₀.old.ptb.lock

section Rounds

variable {s₀ s s' : VmFork} {allocs : ℕ → ForkAllocs} {free live rest : List ℕ} {covered : ℕ → Prop}
  {p vpn : ℕ} {err : Errno}

theorem insertLive_keeps (h : s.insertLive vpn = .ok (err, s')) :
    s'.lock = s.lock ∧ s'.ncli = s.ncli ∧ s'.ptbLock = s.ptbLock := by
  obtain ⟨a, -, h⟩ := bind_eq_ok.mp h
  cases h
  exact ⟨rfl, rfl, rfl⟩

theorem forkFree_keeps (h : s.forkFree allocs p = .ok (err, s')) :
    s'.lock = s.lock ∧ s'.ncli = s.ncli ∧ s'.ptbLock = s.ptbLock := by
  unfold forkFree at h
  split at h
  · cases h
    exact ⟨rfl, rfl, rfl⟩
  · obtain ⟨a, -, h⟩ := bind_eq_ok.mp h
    cases h
    exact ⟨rfl, rfl, rfl⟩

theorem forkLive_keeps (h : s.forkLive allocs p = .ok (err, s')) :
    s'.lock = s.lock ∧ s'.ncli = s.ncli ∧ (s.ptbLock = true → s'.ptbLock = true) := by
  have hinsert : ∀ {s₁ : VmFork} {vpn : ℕ}, s₁.insertLive vpn = .ok (err, s') → s₁.lock = s.lock →
      s₁.ncli = s.ncli → (s.ptbLock = true → s₁.ptbLock = true) →
      s'.lock = s.lock ∧ s'.ncli = s.ncli ∧ (s.ptbLock = true → s'.ptbLock = true) := by grind [insertLive_keeps]
  unfold forkLive at h
  split at h
  · cases h
    exact ⟨rfl, rfl, id⟩
  · unfold forkDesc at h
    dsimp only at h
    split at h
    · split at h
      · cases h
        exact ⟨rfl, rfl, id⟩
      · obtain ⟨s₁, hcopy, h⟩ := bind_eq_ok.mp h
        obtain ⟨t, hcopyTo, hs₁⟩ := bind_eq_ok.mp hcopy
        cases hs₁
        exact hinsert h rfl rfl fun hheld ↦ absurd hcopyTo (Ptb.copyTo_locked hheld _ _ _ _ t)
    · exact hinsert h rfl rfl id

theorem forkDesc_normal (hnormal : s.alct.type p = .umNormal) (hp : p ≠ vpn) {a : ForkAllocs} {page : ℕ}
    (hpage : a.page = some page) {t : Ptb}
    (hcopy : s.ptb.copyTo a.table (s.alct.addr p) page (s.old.mapPage p) = .ok t) :
    s.forkDesc a vpn p = (((s.copyLive vpn p).setMapPage vpn page).setPtb t).insertLive vpn := by
  have htype : (s.copyLive vpn p).new.type vpn = .umNormal := (update_self _ _ _).trans hnormal
  have haddr : ((s.copyLive vpn p).setMapPage vpn page).new.addr vpn = s.alct.addr p :=
    update_self _ _ _
  have hmap : ((s.copyLive vpn p).setMapPage vpn page).old.mapPage p = s.old.mapPage p :=
    update_of_ne hp _ _
  have hrun : (s.copyLive vpn p).copyPage a.table vpn p page =
      .ok (((s.copyLive vpn p).setMapPage vpn page).setPtb t) := by
    refine bind_eq_ok.mpr ⟨t, ?_, rfl⟩
    rw [haddr, hmap]
    exact hcopy
  simp only [forkDesc, htype, if_true, hpage, hrun, ok_bind]

section

variable (hvalid : s₀.alct.Valid s₀.alct.frees s₀.alct.lives covered)
  (hplain : ∀ p, s₀.Normal p → s₀.ptb.Plain (s₀.alct.addr p)) (hsup : s₀.Supplied allocs)
  (h : Copied s₀ allocs [] live s) (hlives : s₀.alct.lives = live ++ p :: rest)
include hvalid hplain hsup h hlives

theorem Copied.forkLive (hserves : s₀.ServesLive allocs p) :
    ∃ s', s.forkLive allocs (p + vpageRbtNode) = .ok (.ok, s') ∧ Copied s₀ allocs [] (live ++ [p]) s' := by
  obtain ⟨⟨vpn, hnew⟩, hpage, htable⟩ := hserves
  have hmem : p ∈ s₀.alct.frees ++ s₀.alct.lives := by simp [hlives]
  have hnode : VpageAlct.vpageOf (p + vpageRbtNode) = p :=
    VpageAlct.vpageOf_add (hvalid.trees.desc p hmem)
  have hne : p ≠ vpn := by
    rintro rfl
    exact (hsup.desc p hmem p hnew).2 hmem
  have hrun : s.forkLive allocs (p + vpageRbtNode) = s.forkDesc (allocs p) vpn p := by
    simp only [VmFork.forkLive, hnode, hnew]
  have htype := h.descs.type p hmem
  rw [hrun]
  by_cases hnormal : s₀.Normal p
  · obtain ⟨page, hpage⟩ := Option.isSome_iff_exists.mp (hpage hnormal)
    obtain ⟨t, hcopy, hsteady, htables, hcopies⟩ := h.tables.step hsup hvalid hlives hnormal
      (hplain p hnormal) hpage htable (s₀.old.mapPage p)
    have hcopy' : s.ptb.copyTo (allocs p).table (s.alct.addr p) page (s.old.mapPage p) = .ok t := by
      rw [h.descs.untouched.addr p hmem, h.descs.mapPage p hmem, hcopy]
    have hself : (((s.copyLive vpn p).setMapPage vpn page).setPtb t).old.mapPage vpn = page :=
      update_self _ _ _
    obtain ⟨a, hinsert, hdescs⟩ := h.descs.insertLive hvalid hsup hlives hnew
      (show (((s.copyLive vpn p).setMapPage vpn page).setPtb t).old.um = _ from rfl) rfl rfl
      (fun q hq ↦ update_of_ne hq _ _) (fun _ ↦ by rw [hself, hpage])
    rw [forkDesc_normal (htype.trans hnormal.2) hne hpage hcopy']
    refine ⟨_, hinsert, hdescs, htables, fun hapart ↦ ?_, h.parent⟩
    have hlt : s₀.alct.addr p < kernBase :=
      (hapart.parent.pageAddr hnormal.1).2.1.trans (by decide)
    have hpages := h.pages hapart
    have hv2p := (hapart.parent.normal p hnormal.1 hnormal.2).2
    refine hpages.step h.tables hapart.child hapart.pages hsup hvalid hlives hnormal hlt hpage
      ⟨Ptb.pageAddr_of_v2p hapart.parent.ptb (hapart.parent.plain _ hlt) hv2p, .inr ⟨_, hlt, .inr hv2p⟩⟩
      hsteady (hcopies ?_)
    refine hpages.unmapped _ (hapart.parent.pageAddr hnormal.1).1 hlt fun q hq _ ↦ ?_
    exact Nat.ne_of_lt ((mem_copied_iff hvalid hlives).mp hq).2
  · have hother : s₀.alct.type p ≠ .umNormal := fun heq ↦ hnormal ⟨by simp [hlives], heq⟩
    have hkind : (s.copyLive vpn p).new.type vpn ≠ .umNormal := by
      rw [show (s.copyLive vpn p).new.type vpn = s.alct.type p from update_self _ _ _, htype]
      exact hother
    obtain ⟨a, hinsert, hdescs⟩ := h.descs.insertLive hvalid hsup hlives hnew rfl
      (show (s.copyLive vpn p).freeRoot = _ from rfl) rfl (fun _ _ ↦ rfl) (fun heq ↦ absurd heq hother)
    refine ⟨_, ?_, hdescs, h.tables.skip hnormal, fun hapart ↦ (h.pages hapart).skip hnormal, h.parent⟩
    rw [VmFork.forkDesc, if_neg hkind, hinsert]

theorem Copied.forkLive_fails (hfails : ¬ s₀.ServesLive allocs p)
    (hrun : s.forkLive allocs (p + vpageRbtNode) = .ok (.ok, s')) : s'.ptbLock = true := by
  have hmem : p ∈ s₀.alct.frees ++ s₀.alct.lives := by simp [hlives]
  have hnode : VpageAlct.vpageOf (p + vpageRbtNode) = p :=
    VpageAlct.vpageOf_add (hvalid.trees.desc p hmem)
  cases hnew : (allocs p).new with
  | error e =>
    simp only [VmFork.forkLive, hnode, hnew] at hrun
    cases hrun
    exact absurd hnew (hsup.error p)
  | ok vpn =>
    simp only [VmFork.forkLive, hnode, hnew] at hrun
    have hnormal : s₀.Normal p := by
      by_contra hno
      exact hfails ⟨⟨vpn, hnew⟩, fun hyes ↦ absurd hyes hno, fun hneeds ↦ absurd hneeds.1 hno⟩
    have htype : s.alct.type p = .umNormal := (h.descs.type p hmem).trans hnormal.2
    have hkind : (s.copyLive vpn p).new.type vpn = .umNormal := (update_self _ _ _).trans htype
    cases hpage : (allocs p).page with
    | none =>
      simp only [VmFork.forkDesc, hkind, if_true, hpage] at hrun
      cases hrun
    | some page =>
      -- the table for the page is missing
      have hneeds : s₀.NeedsTable p ∧ (allocs p).table = none := by
        by_contra hno
        refine hfails ⟨⟨vpn, hnew⟩, fun _ ↦ by rw [hpage]; rfl, fun hneeds ↦ ?_⟩
        exact Option.ne_none_iff_isSome.mp fun hnone ↦ hno ⟨hneeds, hnone⟩
      have hne : p ≠ vpn := by
        rintro rfl
        exact (hsup.desc p hmem p hnew).2 hmem
      have hunused := h.tables.asked_unused hsup (not_mem_copied hvalid hlives) ⟨hnormal, .inl hpage⟩
      have hbound := hvalid.regions.bound p hmem
      have hpos := hvalid.regions.pos p hmem
      obtain ⟨t, hcopy, hlock⟩ := Ptb.copyTo_noTable h.tables.inv
        ⟨hvalid.regions.start_unit p hmem, by omega⟩ (h.tables.plain _ (hplain p hnormal)) hunused
        ((h.tables.needsTable_iff hvalid hlives hnormal).mp hneeds.1) (s.old.mapPage p)
      rw [← hneeds.2, ← h.descs.untouched.addr p hmem] at hcopy
      rw [forkDesc_normal htype hne hpage hcopy] at hrun
      exact (insertLive_keeps hrun).2.2.trans hlock

end

theorem Copied.forkFree (hvalid : s₀.alct.Valid s₀.alct.frees s₀.alct.lives covered)
    (hsup : s₀.Supplied allocs) (h : Copied s₀ allocs free s₀.alct.lives s)
    (hfrees : s₀.alct.frees = free ++ p :: rest) (hnew : (allocs p).new = .ok vpn) :
    ∃ s', s.forkFree allocs (p + vpageRbtNode) = .ok (.ok, s') ∧
      Copied s₀ allocs (free ++ [p]) s₀.alct.lives s' := by
  have hmem : p ∈ s₀.alct.frees ++ s₀.alct.lives := by simp [hfrees]
  have hnode : VpageAlct.vpageOf (p + vpageRbtNode) = p :=
    VpageAlct.vpageOf_add (hvalid.trees.desc p hmem)
  obtain ⟨a, hinsert, hdescs⟩ := h.descs.insertFree hvalid hsup hfrees hnew
  refine ⟨_, ?_, hdescs, h.tables, h.pages, h.parent⟩
  simp only [VmFork.forkFree, hnode, hnew, hinsert]

end Rounds

/-! ### The loops -/

section Loops

variable {s₀ s s' : VmFork} {allocs : ℕ → ForkAllocs} {free live : List ℕ} {covered : ℕ → Prop} {err : Errno}

def Walked (L : List ℕ) (I : List ℕ → VmFork → Prop) (xs ys : List ℕ) (s : VmFork) : Prop :=
  ∃ done rest, xs = VpageAlct.rbtNodes done ∧ ys = VpageAlct.rbtNodes rest ∧ L = done ++ rest ∧ I done s

theorem Walked.cons {L : List ℕ} {I : List ℕ → VmFork → Prop} {xs ys : List ℕ} {x : ℕ}
    (h : Walked L I xs (x :: ys) s) : ∃ done p rest, x = p + vpageRbtNode ∧ xs = VpageAlct.rbtNodes done ∧
      ys = VpageAlct.rbtNodes rest ∧ L = done ++ p :: rest ∧ I done s := by
  obtain ⟨done, rest, rfl, hrest, hL, hI⟩ := h
  cases rest with
  | nil => cases hrest
  | cons p rest =>
    obtain ⟨rfl, rfl⟩ := List.cons.inj hrest
    exact ⟨done, p, rest, rfl, rfl, rfl, hL, hI⟩

theorem forkLoop_rule {body : ℕ → VmFork → Result (Errno × VmFork)} {tree : VmFork → Rbt} {L : List ℕ}
    {I : List ℕ → VmFork → Prop} {Fine : ℕ → Prop} (htree : ∀ s, (tree s).mem = s.alct.tree)
    (hholds : ∀ done s, I done s → ∃ T, (tree s).Holds T ∧ T.inorder = VpageAlct.rbtNodes L)
    (hfine : ∀ done p rest s, L = done ++ p :: rest → I done s → Fine p →
      ∃ s', body (p + vpageRbtNode) s = .ok (.ok, s') ∧ I (done ++ [p]) s')
    (hfails : ∀ done p rest s, L = done ++ p :: rest → I done s → ¬ Fine p → ∀ s',
      body (p + vpageRbtNode) s = .ok (.ok, s') → s'.ptbLock = true)
    (hstuck : ∀ x s err s', s.ptbLock = true → body x s = .ok (err, s') → s'.ptbLock = true) (h : I [] s) :
    ((∀ p ∈ L, Fine p) → ∃ s', forkLoop body (tree s) s = .ok (.ok, s') ∧ I L s') ∧
      ((∃ p ∈ L, ¬ Fine p) → ∀ s', forkLoop body (tree s) s = .ok (.ok, s') → s'.ptbLock = true) := by
  have hnext : ∀ xs x ys s, Walked L I (xs ++ [x]) ys s → Rbt.rbtNext s.alct.tree x = .ok (ys.headD 0) := by
    rintro xs x ys s ⟨done, rest, hdone, rfl, rfl, hI⟩
    grind [VpageAlct.rbtNodes, Rbt.rbtNext_eq]
  have hround : ∀ xs x ys s, Walked L I xs (x :: ys) s → (∀ p, x = p + vpageRbtNode → Fine p) →
      ∃ s', body x s = .ok (.ok, s') ∧ Walked L I (xs ++ [x]) ys s' := by
    intro xs x ys s hI hgood
    obtain ⟨done, p, rest, rfl, rfl, rfl, hL, hI⟩ := hI.cons
    obtain ⟨s', hrun, hI'⟩ := hfine done p rest s hL hI (hgood p rfl)
    exact ⟨s', hrun, done ++ [p], rest, by simp [VpageAlct.rbtNodes], rfl, by simpa using hL, hI'⟩
  have hfails' : ∀ xs x ys s, Walked L I xs (x :: ys) s → ¬ (∀ p, x = p + vpageRbtNode → Fine p) →
      ∀ s', body x s = .ok (.ok, s') → s'.ptbLock = true := by
    intro xs x ys s hI hbad
    grind [hI.cons]
  have hnode : ∀ xs x ys s, Walked L I xs (x :: ys) s → x ≠ 0 := by
    intro xs x ys s hI
    obtain ⟨done, p, rest, rfl, rfl, rfl, rfl, hdone⟩ := hI.cons
    obtain ⟨T, hT, hinorder⟩ := hholds _ s hdone
    exact hT.rep.ne_zero (t := T) (hinorder ▸ VpageAlct.mem_rbtNodes.mpr (by simp))
  obtain ⟨T, hT, hinorder⟩ := hholds [] s h
  have hloop : forkLoop body (tree s) s =
      Rbt.rbtRep (fun s ↦ s.alct.tree) body addressSpace ((VpageAlct.rbtNodes L).headD 0) s := by
    rw [forkLoop, Rbt.rbtFirst_eq hT, hinorder]
    rfl
  have hlength : (VpageAlct.rbtNodes L).length < addressSpace := by
    have hsize := hT.size_lt
    rwa [← Tree.length_inorder, hinorder] at hsize
  obtain ⟨hall, hsome⟩ := Rbt.rbtRep_rule hnext hround hfails' hstuck hnode
    (show Walked L I [] (VpageAlct.rbtNodes L) s from ⟨[], L, rfl, rfl, rfl, h⟩) hlength
  rw [hloop]
  refine ⟨fun hyes ↦ ?_, ?_⟩
  · obtain ⟨s', hrun, done, rest, -, hrest, rfl, hI⟩ := hall fun x hx p hp ↦
      hyes p (VpageAlct.mem_rbtNodes.mp (hp ▸ hx))
    obtain rfl : rest = [] := List.map_eq_nil_iff.mp hrest.symm
    exact ⟨s', hrun, by rwa [append_nil]⟩
  · rintro ⟨p, hp, hno⟩
    exact hsome ⟨p + vpageRbtNode, VpageAlct.mem_rbtNodes.mpr hp, fun hyes ↦ hno (hyes p rfl)⟩

theorem Copied.forkLoop_live (hvalid : s₀.alct.Valid s₀.alct.frees s₀.alct.lives covered)
    (hplain : ∀ p, s₀.Normal p → s₀.ptb.Plain (s₀.alct.addr p)) (hsup : s₀.Supplied allocs)
    (h : Copied s₀ allocs [] [] s) : ((∀ p ∈ s₀.alct.lives, s₀.ServesLive allocs p) →
      ∃ s', forkLoop (VmFork.forkLive allocs) s.alct.allocedRbt s = .ok (.ok, s') ∧
        Copied s₀ allocs [] s₀.alct.lives s') ∧
      ((∃ p ∈ s₀.alct.lives, ¬ s₀.ServesLive allocs p) →
        ∀ s', forkLoop (VmFork.forkLive allocs) s.alct.allocedRbt s = .ok (.ok, s') → s'.ptbLock = true) := by
  refine forkLoop_rule (I := fun live s ↦ Copied s₀ allocs [] live s)
    (show ∀ s : VmFork, s.alct.allocedRbt.mem = _ from fun _ ↦ rfl) (fun live s h ↦ ?_)
    (fun live p rest s hlives h hserves ↦ h.forkLive hvalid hplain hsup hlives hserves)
    (fun live p rest s hlives h hno s' hrun ↦ h.forkLive_fails hvalid hplain hsup hlives hno hrun)
    (fun x s err s' hlock hrun ↦ (forkLive_keeps hrun).2.2 hlock) h
  obtain ⟨T, hT, -, hinorder⟩ := (h.descs.untouched.valid hvalid).trees.live_tree
  exact ⟨T, hT, hinorder⟩

theorem Copied.forkLoop_free (hvalid : s₀.alct.Valid s₀.alct.frees s₀.alct.lives covered)
    (hsup : s₀.Supplied allocs) (h : Copied s₀ allocs [] s₀.alct.lives s) :
    ((∀ p ∈ s₀.alct.frees, ∃ vp, (allocs p).new = .ok vp) →
      ∃ s', forkLoop (VmFork.forkFree allocs) s.alct.freeRbt s = .ok (.ok, s') ∧
        Copied s₀ allocs s₀.alct.frees s₀.alct.lives s') ∧
      ((∃ p ∈ s₀.alct.frees, ¬ ∃ vp, (allocs p).new = .ok vp) →
        ∀ s', forkLoop (VmFork.forkFree allocs) s.alct.freeRbt s = .ok (.ok, s') → s'.ptbLock = true) := by
  refine forkLoop_rule (I := fun free s ↦ Copied s₀ allocs free s₀.alct.lives s)
    (show ∀ s : VmFork, s.alct.freeRbt.mem = _ from fun _ ↦ rfl) (fun free s h ↦ ?_)
      (fun free p rest s hfrees h hnew ↦ ?_) (fun free p rest s hfrees h hno s' hrun ↦ ?_)
    (fun x s err s' hlock hrun ↦ (forkFree_keeps hrun).2.2.trans hlock) h
  · obtain ⟨T, hT, -, hinorder, -⟩ := (h.descs.untouched.valid hvalid).trees.free_tree
    exact ⟨T, hT, hinorder⟩
  · obtain ⟨vpn, hnew⟩ := hnew
    exact h.forkFree hvalid hsup hfrees hnew
  · have hmem : p ∈ s₀.alct.frees ++ s₀.alct.lives := by simp [hfrees]
    cases hnew : (allocs p).new with
    | ok vpn => exact absurd ⟨vpn, hnew⟩ hno
    | error e =>
      simp only [VmFork.forkFree, VpageAlct.vpageOf_add (hvalid.trees.desc p hmem), hnew] at hrun
      cases hrun
      exact absurd hnew (hsup.error p)

theorem forkLoop_keeps {body : ℕ → VmFork → Result (Errno × VmFork)} {t : Rbt}
    (hbody : ∀ {x s err s'}, body x s = .ok (err, s') → s'.lock = s.lock ∧ s'.ncli = s.ncli)
    (h : forkLoop body t s = .ok (err, s')) : s'.lock = s.lock ∧ s'.ncli = s.ncli := by
  obtain ⟨first, -, hrun⟩ := bind_eq_ok.mp h
  refine Rbt.rbtRep_keeps (P := fun u : VmFork ↦ u.lock = s.lock ∧ u.ncli = s.ncli)
    (fun x u err u' hu hround ↦ ?_) ⟨rfl, rfl⟩ hrun
  obtain ⟨hlock, hncli⟩ := hbody hround
  exact ⟨hlock.trans hu.1, hncli.trans hu.2⟩

theorem copied_init (hforkable : s₀.Forkable) (allocs : ℕ → ForkAllocs) (b : Bool) (n : ℕ) :
    Copied s₀ allocs [] [] (({ s₀ with lock := b, ncli := n } : VmFork).setNew s₀.new.vmInit) where
  descs := by
    refine ⟨rfl, ⟨rfl, rfl, fun _ _ ↦ rfl, fun _ _ ↦ rfl, fun _ _ ↦ rfl, fun _ _ ↦ .refl _ _⟩,
      fun _ _ ↦ rfl, fun _ _ ↦ rfl, by simp, by simp, ?_, by simp⟩
    exact ⟨[], fun _ ↦ False, by simp, fun x ↦ by simp [VpageAlct.HeldBy], VpageAlct.vmInit_valid _⟩
  tables := ⟨hforkable.ptb, rfl, fun _ ↦ id, fun va ↦ by simp; rfl, fun x hx _ ↦ hx⟩
  pages hapart := ⟨by simp, fun va hva hlt _ ↦ hapart.child.unmapped va hva hlt, fun _ _ _ hf ↦ .inl hf,
    fun _ _ _ _ _ _ ↦ rfl, by simp⟩
  parent := ⟨rfl, rfl⟩

theorem Copied.setLock (h : Copied s₀ allocs free live s) (b : Bool) (n : ℕ) :
    Copied s₀ allocs free live { s with lock := b, ncli := n } :=
  ⟨⟨h.descs.um, h.descs.untouched, h.descs.type, h.descs.mapPage, h.descs.sub, h.descs.served, h.descs.child,
    fun p hp ↦ ⟨(h.descs.copies p hp).addr, (h.descs.copies p hp).size, (h.descs.copies p hp).type,
      (h.descs.copies p hp).page⟩⟩, h.tables, h.pages, h.parent⟩

theorem vmFork_served (hforkable : s.Forkable) (hsup : s.Supplied allocs) (hserved : s.Served allocs) :
    ∃ s', s.vmFork allocs = .ok (.ok, s') ∧ Copied s allocs s.alct.frees s.alct.lives s' ∧
      s'.lock = false ∧ s'.ncli = s.ncli := by
  obtain ⟨covered, hvalid⟩ := hforkable.lists
  have hinit := copied_init hforkable allocs true (s.ncli + 1)
  obtain ⟨s₁, hlive, h₁⟩ := (hinit.forkLoop_live hvalid hforkable.plain hsup).1 hserved.live
  obtain ⟨s₂, hfree, h₂⟩ := (h₁.forkLoop_free hvalid hsup).1 hserved.free
  have hkeeps₁ := forkLoop_keeps (fun hrun ↦ ⟨(forkLive_keeps hrun).1, (forkLive_keeps hrun).2.1⟩) hlive
  have hkeeps₂ := forkLoop_keeps (fun hrun ↦ ⟨(forkFree_keeps hrun).1, (forkFree_keeps hrun).2.1⟩) hfree
  have hncli : s₂.ncli = s.ncli + 1 := hkeeps₂.2.trans hkeeps₁.2
  refine ⟨{ s₂ with lock := false, ncli := s₂.ncli - 1 }, ?_, h₂.setLock _ _, rfl, by simp [hncli]⟩
  have hlock : s.spinLockIrqsave = .ok { s with lock := true, ncli := s.ncli + 1 } := by
    rw [spinLockIrqsave, hforkable.unlocked]
    rfl
  have hunlock : s₂.spinUnlockIrqrestore = .ok { s₂ with lock := false, ncli := s₂.ncli - 1 } :=
    bind_eq_ok.mpr ⟨(), assert_of_true (by omega), rfl⟩
  refine bind_eq_ok.mpr ⟨_, hlock, bind_eq_ok.mpr ⟨(.ok, s₁), hlive, ?_⟩⟩
  dsimp only
  rw [if_neg (by simp)]
  refine bind_eq_ok.mpr ⟨(.ok, s₂), hfree, ?_⟩
  dsimp only
  rw [if_neg (by simp)]
  exact bind_eq_ok.mpr ⟨_, hunlock, rfl⟩

theorem vmFork_not_served (hforkable : s.Forkable) (hsup : s.Supplied allocs) (hno : ¬ s.Served allocs)
    (hrun : s.vmFork allocs = .ok (err, s')) : s'.lock = true ∨ s'.ptbLock = true := by
  obtain ⟨covered, hvalid⟩ := hforkable.lists
  have hinit := copied_init hforkable allocs true (s.ncli + 1)
  have hlock : s.spinLockIrqsave = .ok { s with lock := true, ncli := s.ncli + 1 } := by
    rw [spinLockIrqsave, hforkable.unlocked]
    rfl
  obtain ⟨u, hspin, hrun⟩ := bind_eq_ok.mp hrun
  obtain rfl := Except.ok.inj (hlock.symm.trans hspin)
  obtain ⟨⟨err₁, s₁⟩, hlive, hrun⟩ := bind_eq_ok.mp hrun
  have hkeeps₁ := forkLoop_keeps (fun hrun ↦ ⟨(forkLive_keeps hrun).1, (forkLive_keeps hrun).2.1⟩) hlive
  dsimp only at hrun
  split_ifs at hrun with herr₁
  · cases hrun
    exact .inl hkeeps₁.1
  rw [not_not] at herr₁
  subst herr₁
  obtain ⟨⟨err₂, s₂⟩, hfree, hrun⟩ := bind_eq_ok.mp hrun
  have hkeeps₂ := forkLoop_keeps (fun hrun ↦ ⟨(forkFree_keeps hrun).1, (forkFree_keeps hrun).2.1⟩) hfree
  dsimp only at hrun
  split_ifs at hrun with herr₂
  · cases hrun
    exact .inl (hkeeps₂.1.trans hkeeps₁.1)
  rw [not_not] at herr₂
  subst herr₂
  -- both loops have come to their ends, so that the first has left the directory locked
  have hptb : s₂.ptbLock = true := by
    by_cases hall : ∀ p ∈ s.alct.lives, s.ServesLive allocs p
    · obtain ⟨s₁', hlive', h₁⟩ := (hinit.forkLoop_live hvalid hforkable.plain hsup).1 hall
      obtain ⟨-, rfl⟩ := ok_pair_inj (hlive.symm.trans hlive')
      refine (h₁.forkLoop_free hvalid hsup).2 ?_ s₂ hfree
      by_contra hfrees
      push Not at hfrees
      exact hno ⟨hall, hfrees⟩
    · push Not at hall
      have hheld := (hinit.forkLoop_live hvalid hforkable.plain hsup).2 hall s₁ hlive
      obtain ⟨first, -, hrep⟩ := bind_eq_ok.mp hfree
      exact Rbt.rbtRep_keeps (P := fun u : VmFork ↦ u.ptbLock = true)
        (fun x u err u' hu hround ↦ (forkFree_keeps hround).2.2.trans hu) hheld hrep
  obtain ⟨s₃, hunlock, hret⟩ := bind_eq_ok.mp hrun
  cases hret
  obtain ⟨_, -, hunlock⟩ := bind_eq_ok.mp hunlock
  cases hunlock
  exact .inr hptb

end Loops

/-! ### The result -/

def region (a : VpageAlct) (p : ℕ) : ℕ × ℕ × VpageType := (a.addr p, a.size p, a.type p)

/-- What the child has after `vm_fork`: the regions of the parent, with new pages that hold what the pages of the
parent held. -/
structure ForkedChild (s s' : VmFork) : Prop where
  valid : ∃ covered, s'.new.Valid s'.new.frees s'.new.lives covered
  regions : s'.new.lives.map (region s'.new) = s.alct.lives.map (region s.alct)
  free : ∀ x, s'.new.HeldBy s'.new.frees x ↔ s.alct.HeldBy s.alct.frees x
  mxSize : ∃ T, s'.new.freeRbt.Holds T ∧ ∀ fs l n c r, T = plug fs (.node l n c r) →
    IsGreatest {k | ∃ m ∈ (Library.Tree.node l n c r).inorder, s'.new.size (VpageAlct.vpageOf m) = k}
      (s'.new.mxSize (VpageAlct.vpageOf n))
  pages : ∀ q ∈ s'.new.lives, s'.new.type q = .umNormal → ¬ s.old.ptb.Owns (s'.old.mapPage q) ∧
    s'.ptb.v2p (s'.new.addr q) = .ok (.ok, some (s'.old.mapPage q)) ∧
    ∃ p ∈ s.alct.lives, s.alct.addr p = s'.new.addr q ∧ s.alct.type p = .umNormal ∧
      s'.ptb.mem.pageBytes (s'.old.mapPage q) = s.old.ptb.mem.pageBytes (s.old.mapPage p)
  apart : ∀ q ∈ s'.new.lives, ∀ r ∈ s'.new.lives, s'.new.type q = .umNormal → s'.new.type r = .umNormal →
    s'.old.mapPage q = s'.old.mapPage r → q = r

/-- The parent has the regions, the translations and the pages it had. -/
structure KeptParent (s s' : VmFork) : Prop where
  um : s'.old.um = s.old.um.setVpAlct s'.alct
  alct : s.alct.Untouched s'.alct
  frees : s'.alct.frees = s.alct.frees
  lives : s'.alct.lives = s.alct.lives
  regions : ∀ p ∈ s.alct.frees ++ s.alct.lives,
    region s'.alct p = region s.alct p ∧ s'.old.mapPage p = s.old.mapPage p
  ptb : s.old.ptb.SameOwned s'.old.ptb
  translations : ∀ va < kernBase, s'.old.ptb.v2p va = s.old.ptb.v2p va
  pages : ∀ va < kernBase, ∀ page, s.old.ptb.v2p va = .ok (.ok, some page) →
    s'.old.ptb.mem.pageBytes page = s.old.ptb.mem.pageBytes page

section Result

variable {s s' : VmFork} {allocs : ℕ → ForkAllocs} {covered : ℕ → Prop}

theorem held_free_iff {a : VpageAlct} {free live : List ℕ} (h : a.Valid free live covered) (x : ℕ) :
    a.HeldBy free x ↔ a.HeldBy (free ++ live) x ∧ ¬ a.HeldBy live x := by
  constructor
  · rintro ⟨p, hp, hx⟩
    refine ⟨⟨p, mem_append_left _ hp, hx⟩, ?_⟩
    rintro ⟨q, hq, hx'⟩
    obtain rfl := h.regions.eq_of_common (mem_append_left _ hp) (mem_append_right _ hq) hx hx'
    exact h.trees.not_mem_live hq hp
  · rintro ⟨⟨p, hp, hx⟩, hno⟩
    exact ⟨p, (List.mem_append.mp hp).resolve_right fun hlive ↦ hno ⟨p, hlive, hx⟩, hx⟩

theorem Copied.forkedChild (hvalid : s.alct.Valid s.alct.frees s.alct.lives covered) (hapart : s.Apart allocs)
    (hsup : s.Supplied allocs) (h : Copied s allocs s.alct.frees s.alct.lives s') : ForkedChild s s' := by
  obtain ⟨free', covered', -, hcover, hchild⟩ := h.descs.child
  have hfrees : s'.new.frees = free' := hchild.trees.frees_eq
  have hlives : s'.new.lives = s.alct.lives.map fun p ↦ (allocs p).vp := hchild.trees.lives_eq
  -- a live region of the child with a page is the copy of one of the parent
  have hnormal : ∀ q ∈ s'.new.lives, s'.new.type q = .umNormal → ∃ p, s.Normal p ∧ q = (allocs p).vp ∧
      s'.new.addr q = s.alct.addr p ∧ (allocs p).page = some (s'.old.mapPage q) := by
    intro q hq hq'
    obtain ⟨p, hp, rfl⟩ := List.mem_map.mp (hlives ▸ hq)
    have hcopy := h.descs.copies p hp
    have htype : s.alct.type p = .umNormal := hcopy.type.symm.trans hq'
    exact ⟨p, ⟨hp, htype⟩, rfl, hcopy.addr, hcopy.page htype⟩
  have hpages := h.pages hapart
  refine ⟨⟨covered', by rwa [hfrees, hlives]⟩, ?_, fun x ↦ ?_, ?_, fun q hq hq' ↦ ?_, fun q hq r hr hq' hr' heq ↦ ?_⟩
  · rw [hlives, map_map]
    refine map_congr_left fun p hp ↦ ?_
    have hcopy := h.descs.copies p hp
    exact Prod.ext hcopy.addr (Prod.ext hcopy.size hcopy.type)
  · have hlive : s'.new.HeldBy (s.alct.lives.map fun p ↦ (allocs p).vp) x ↔ s.alct.HeldBy s.alct.lives x := by
      have hin : ∀ p ∈ s.alct.lives, InRegion s'.new.addr s'.new.size (allocs p).vp x ↔
          InRegion s.alct.addr s.alct.size p x := by
        intro p hp
        have hcopy := h.descs.copies p hp
        rw [InRegion, InRegion, show s'.new.addr (allocs p).vp = _ from hcopy.addr,
          show s'.new.size (allocs p).vp = _ from hcopy.size]
      constructor
      · rintro ⟨q, hq, hx⟩
        obtain ⟨p, hp, rfl⟩ := List.mem_map.mp hq
        exact ⟨p, hp, (hin p hp).mp hx⟩
      · rintro ⟨p, hp, hx⟩
        exact ⟨_, mem_map_of_mem hp, (hin p hp).mpr hx⟩
    have hall : s'.new.HeldBy (free' ++ s.alct.lives.map fun p ↦ (allocs p).vp) x ↔
        s.alct.HeldBy (s.alct.frees ++ s.alct.lives) x := (hchild.regions.cover x).symm.trans (hcover x)
    rw [hfrees, held_free_iff hchild, held_free_iff hvalid, hall, hlive]
  · obtain ⟨T, hT, -, -, hsummed⟩ := hchild.trees.free_tree
    refine ⟨T, hT, ?_⟩
    rintro fs l n c r rfl
    exact VpageAlct.mxSize_isGreatest hT.represents.2 hsummed.of_plug.1 (by simp)
  · obtain ⟨p, hp, rfl, haddr, hpage⟩ := hnormal q hq hq'
    have hask : s.Asked allocs p _ := ⟨hp, .inl hpage⟩
    have hunused := hsup.page p _ hask
    have hlt : s.alct.addr p < kernBase := (hapart.parent.pageAddr hp.1).2.1.trans (by decide)
    have hv2p := (hapart.parent.normal p hp.1 hp.2).2
    have hold := Ptb.pageAddr_of_v2p hapart.parent.ptb (hapart.parent.plain _ hlt) hv2p
    refine ⟨hapart.pages p _ hask, ?_, p, hp.1, haddr.symm, hp.2, ?_⟩
    · rw [haddr]
      exact Ptb.v2p_of_entryAt h.tables.inv (h.tables.plain _ (hapart.child.plain _ hlt)) hunused.1
        (hpages.mapped p hp.1 hp _ hpage)
    · exact pageBytes_copy hold.1 hunused.1.1 fun i hi ↦ hpages.contents p hp.1 hp _ hpage i hi
  · obtain ⟨p, hp, rfl, -, hpage⟩ := hnormal q hq hq'
    obtain ⟨p', hp', rfl, -, hpage'⟩ := hnormal r hr hr'
    rw [heq] at hpage
    rw [hsup.page_inj p p' _ ⟨hp, .inl hpage⟩ ⟨hp', .inl hpage'⟩]

theorem Copied.keptParent (hvalid : s.alct.Valid s.alct.frees s.alct.lives covered) (hapart : s.Apart allocs)
    (h : Copied s allocs s.alct.frees s.alct.lives s') : KeptParent s s' := by
  have hvalid' := h.descs.untouched.valid hvalid
  have hinv := hapart.parent.ptb
  have hplain := hapart.parent.plain
  have hsame : s.old.ptb.SameOwned s'.old.ptb := ⟨h.parent.1, h.parent.2, fun page x hunit howns ↦
    (h.pages hapart).kept page x (howns.pageAddr hinv hplain hunit) howns⟩
  refine ⟨h.descs.um, h.descs.untouched, hvalid'.trees.frees_eq, hvalid'.trees.lives_eq, fun p hp ↦
    ⟨?_, h.descs.mapPage p hp⟩, hsame, fun va hva ↦ ?_, fun va hva page hv2p ↦ ?_⟩
  · exact Prod.ext (h.descs.untouched.addr p hp) (Prod.ext (h.descs.untouched.size p hp) (h.descs.type p hp))
  · grind [Ptb.v2p_eq, hsame.inv, hsame.plain, hsame.entryAt]
  · have hunit := (Ptb.pageAddr_of_v2p hinv (hplain va hva) hv2p).1
    exact pageBytes_congr hunit fun x hx hx' ↦ hsame.word page x hunit (.inr ⟨va, hva, .inr hv2p⟩) hx hx'

/-- `vm_fork` from a parent as page faults leave it to a child without user mappings, with every allocation
served: the child has the parent's regions and copies of its pages, and the parent has what it had. -/
theorem vmFork_forked (hforkable : s.Forkable) (hapart : s.Apart allocs) (hsup : s.Supplied allocs)
    (hserved : s.Served allocs) : ∃ s', s.vmFork allocs = .ok (.ok, s') ∧ ForkedChild s s' ∧ KeptParent s s' := by
  obtain ⟨covered, hvalid⟩ := hforkable.lists
  obtain ⟨s', hrun, hcopied, -, -⟩ := vmFork_served hforkable hsup hserved
  exact ⟨s', hrun, hcopied.forkedChild hvalid hapart hsup, hcopied.keptParent hvalid hapart⟩

/-- When the locks are given back. `ptb_map` keeps the lock of the directory exactly if it needs a table and
`page_alloc` fails. `vm_fork` returns with the locks given back and the count of interrupts as before exactly if
every allocation it asks for succeeds. -/
theorem locks_released_iff (t : Ptb) (page : Option ℕ) (va pa usr wtb : ℕ) (s : VmFork) (allocs : ℕ → ForkAllocs) :
    (t.Inv → Ptb.PageAddr va → Ptb.PageAddr pa → t.Plain va → (∀ p, page = some p → t.Unused p) →
      ∃ err t', t.ptbMap page va pa usr wtb = .ok (err, t') ∧ (t'.lock = false ↔ t.HasTable va ∨ page.isSome)) ∧
    (s.Forkable → s.Supplied allocs →
      ((∃ err s', s.vmFork allocs = .ok (err, s') ∧ s'.lock = false ∧ s'.ncli = s.ncli ∧ s'.ptbLock = false) ↔
        s.Served allocs)) := by
  refine ⟨fun hinv hva hpa hplain hpage ↦ ?_, fun hforkable hsup ↦ ⟨?_, fun hserved ↦ ?_⟩⟩
  · obtain ⟨hno, hnone, hrun⟩ | ⟨hyes, -, hrun⟩ | ⟨hroom, -, t', hrun, hentered, -⟩ :=
      Ptb.ptbMap_cases hinv hva hpa hplain hpage usr wtb
    · exact ⟨_, _, hrun, by simp [hno, hnone]⟩
    · exact ⟨_, _, hrun, by simp [hyes, hinv.unlocked]⟩
    · exact ⟨_, t', hrun, by simp [hentered.inv.unlocked, hroom]⟩
  · grind [vmFork_not_served]
  · obtain ⟨s', hrun, hcopied, hlock, hncli⟩ := vmFork_served hforkable hsup hserved
    exact ⟨.ok, s', hrun, hlock, hncli, hcopied.tables.inv.unlocked⟩

end Result

/-! ### A process with one page -/

/-- A directory at `0x2000` with a table at `0x4000` for its first slot, whose first entry is the page at
`0x5000`. -/
def exampleMem : PhysMem := (PhysMem.blank.set 0x2000 0x4007).set 0x4000 0x5007

theorem exampleMem_word (x : ℕ) :
    exampleMem.word x = if x = 0x4000 then 0x5007 else if x = 0x2000 then 0x4007 else 0 := by
  simp [exampleMem, PhysMem.set, PhysMem.blank, update_apply, addressSpace]

/-- The directory of the parent, and that of the child at `0x6000`. -/
def examplePtb : Ptb := ⟨exampleMem, 0x2000, false⟩
def exampleChild : Ptb := ⟨exampleMem, 0x6000, false⟩

theorem examplePtb_dir (i : Fin 1024) : examplePtb.tables.dir i = if i = 0 then some 4 else none := by
  have hlt := i.isLt
  have hword : exampleMem.word (0x2000 + (i : ℕ) * 4) = if i = 0 then 0x4007 else 0 := by grind [exampleMem_word]
  simp only [Ptb.tables, PhysMem.tables, examplePtb, hword]
  split_ifs <;> decide

theorem exampleChild_word (i : Fin 1024) : exampleMem.word (0x6000 + (i : ℕ) * 4) = 0 := by
  have hlt := i.isLt
  rw [exampleMem_word, if_neg (by omega), if_neg (by omega)]

theorem exampleChild_dir (i : Fin 1024) : exampleChild.tables.dir i = none := by
  simp only [Ptb.tables, PhysMem.tables, exampleChild, exampleChild_word]
  decide

theorem exampleChild_inv : exampleChild.Inv := by
  refine ⟨rfl, by decide, by decide, fun i i' f hf hf' ↦ ?_, fun i f hf ↦ ?_⟩
  · cases (exampleChild_dir i).symm.trans hf
  · cases (exampleChild_dir i).symm.trans hf

theorem exampleChild_plain (va : ℕ) : exampleChild.Plain va := by
  refine .inl ?_
  rw [show exampleChild.mem.word (exampleChild.pde + slotOf va * 4) = 0 from exampleChild_word _]
  exact Nat.zero_and _

theorem exampleChild_unused {page : ℕ} (hpage : Ptb.PageAddr page) (hne : page ≠ 0x6000) :
    exampleChild.Unused page :=
  ⟨hpage, hne, fun i ↦ by simp [exampleChild_dir]⟩

theorem examplePtb_inv : examplePtb.Inv := by
  refine ⟨rfl, by decide, by decide, fun i i' f hf hf' ↦ ?_, fun i f hf ↦ ?_⟩
  · replace hf := (examplePtb_dir i).symm.trans hf
    replace hf' := (examplePtb_dir i').symm.trans hf'
    split_ifs at hf hf' with hi hi'
    rw [hi, hi']
  · replace hf := (examplePtb_dir i).symm.trans hf
    split_ifs at hf
    obtain rfl := Option.some_inj.mp hf
    decide

theorem examplePtb_plain (va : ℕ) : examplePtb.Plain va := by
  refine .inr ?_
  have hlt := (slotOf va).isLt
  rw [show examplePtb.mem.word _ = _ from exampleMem_word _, if_neg]
  · split_ifs <;> decide
  · simp only [examplePtb]
    omega

theorem examplePtb_entryAt {va : ℕ} (hva : va < addressSpace) :
    examplePtb.entryAt va = if va / pageSize = 0 then some 0x5007 else none := by
  by_cases hslot : slotOf va = 0
  · have hdir : examplePtb.tables.dir (slotOf va) = some 4 := (examplePtb_dir _).trans (if_pos hslot)
    rw [Ptb.entryAt, show examplePtb.tables.lookup _ _ = _ from lookup_word examplePtb_inv.directory hdir]
    have hindex : (placeOf va : ℕ) = va / pageSize := by
      have hpde : va / 4194304 % 1024 = 0 := by
        rw [← pdeIdx_eq]
        exact congrArg Fin.val hslot
      grind [placeOf, pteIdx_eq, pageSize, addressSpace]
    have hplace := (placeOf va).isLt
    rw [show examplePtb.mem.word _ = _ from exampleMem_word _]
    simp only [hindex] at hplace ⊢
    unfold pageSize at *
    split_ifs <;> first | rfl | omega
  · have hne : va / pageSize ≠ 0 := by
      intro hzero
      refine hslot (Fin.ext ?_)
      rw [show (slotOf va : ℕ) = pdeIdx va from rfl, pdeIdx_eq, Fin.val_zero]
      unfold pageSize at hzero
      omega
    rw [if_neg hne, Ptb.entryAt, TwoLevel.lookup_of_dir_none ((examplePtb_dir _).trans (if_neg hslot))]

theorem examplePtb_v2p {va : ℕ} (hva : va < addressSpace) :
    examplePtb.v2p va = .ok (if va / pageSize = 0 then (.ok, some 0x5000) else (.notfound, none)) := by
  rw [Ptb.v2p_eq examplePtb_inv (examplePtb_plain va), examplePtb_entryAt hva]
  split_ifs <;> decide

theorem examplePtb_owns {page : ℕ} (hunit : page % pageSize = 0) (h : examplePtb.Owns page) :
    page ∈ [0x2000, 0x4000, 0x5000] := by
  have hkern : kernBase < addressSpace := by decide
  obtain rfl | ⟨va, hva, hdir | hv2p⟩ := h
  · decide
  all_goals grind [examplePtb_dir, pageSize, examplePtb_v2p]

/-- A process with the page `0x5000` in its only region, and a child without mappings. -/
structure OnePage (s : VmFork) : Prop where
  forkable : s.Forkable
  child : s.ptb = exampleChild
  parent : s.old.ptb = examplePtb
  inv : s.old.Inv
  frees : s.alct.frees = []
  lives : s.alct.lives = [0x1060]
  region : region s.alct 0x1060 = (0, 4096, .umNormal)

theorem onePage_exists : ∃ s : VmFork, s.OnePage := by
  obtain ⟨ptb, hptb, -⟩ := Ptb.exampleSetup
  have hresult : (UmState.exampleCalls [(0x1000, 4096)] UmState.exampleInit).map Paged.exampleView =
      .ok ([(0, 4096, .umNopm)], [0x1060]) := by decide +kernel
  obtain ⟨st, hcalls, hview⟩ := map_eq_ok.mp hresult
  have hrun : Paged.system.Run Paged.Bounded ⟨st.um, fun _ ↦ 0, ptb⟩ := by
    refine Paged.exampleCalls_reach (s := ⟨UmState.exampleInit.um, fun _ ↦ 0, ptb⟩)
      (.init ⟨⟨_, rfl⟩, hptb⟩) hcalls fun c hc s hs ↦ ?_
    have hle : c.2 ≤ 5000 := by grind
    have hheap := (Paged.inv_of_run hs).sound.heap
    grind [hheap.heapE_lt, hheap.layout.heapE_eq, Paged.Bounded, kernBase, addressSpace, pageSize]
  have hinv := Paged.inv_of_run hrun
  obtain ⟨hregions, hdescs⟩ := Prod.mk.inj hview
  have hlives : st.um.vpAlct.lives = [0x1060] ∧ st.um.vpAlct.frees = [] := by
    grind [length_append, length_eq_zero_iff]
  have hregion : st.um.vpAlct.addr 0x1060 = 0 ∧ st.um.vpAlct.size 0x1060 = 4096 := by grind
  obtain ⟨free, covered, hvalid, -⟩ := hinv.valid
  let alct : VpageAlct :=
    { st.um.vpAlct with type := update st.um.vpAlct.type 0x1060 .umNormal }
  let old : Paged := ⟨st.um.setVpAlct alct, fun _ ↦ 0x5000, examplePtb⟩
  have hvalid' : alct.Valid free st.um.vpAlct.lives covered := hvalid.setType _
  have hlives' : alct.lives = [0x1060] := hvalid'.trees.lives_eq.trans hlives.1
  have htype : alct.type 0x1060 = .umNormal := by simp [alct]
  have hone : ∀ p ∈ alct.lives, p = 0x1060 := fun p hp ↦ List.mem_singleton.mp (hlives' ▸ hp)
  have hsound : st.um.Sound := hinv.sound
  have hsound' : (st.um.setVpAlct alct).Sound ∧ _ := hsound.setVpAlct fun free live covered hvalid ↦
    ⟨live, hvalid.setType _, fun _ _ ↦ ⟨rfl, rfl⟩⟩
  have hold : old.Inv := by
    refine ⟨hsound'.1, examplePtb_inv, fun va _ ↦ examplePtb_plain va, fun p hp ↦ ?_, fun p hp _ ↦ ?_,
      fun p hp q hq _ _ _ ↦ (hone p hp).trans (hone q hq).symm, fun va hva hlt hsome ↦ ?_⟩
    · obtain rfl := hone p hp
      exact .inr htype
    · obtain rfl := hone p hp
      refine ⟨hregion.2, ?_⟩
      rw [show old.um.vpAlct.addr 0x1060 = 0 from hregion.1]
      exact examplePtb_v2p (by decide)
    · refine ⟨0x1060, ?_, htype, hregion.1.trans ?_⟩
      · rw [show old.lives = [0x1060] from hlives']
        exact mem_singleton_self _
      · rw [show old.ptb.entryAt va = _ from
          examplePtb_entryAt (hlt.trans (show argsS < addressSpace by decide))] at hsome
        grind [pageSize]
  refine ⟨⟨old, 0, 0, 0x6000, false, false, 0⟩, ⟨rfl, ⟨free, _, covered, hvalid'⟩, exampleChild_inv, fun p _ ↦
    exampleChild_plain _⟩, rfl, rfl, hold, ?_, hlives', ?_⟩
  · refine hvalid'.trees.frees_eq.trans ?_
    rw [← hlives.2, hvalid.trees.frees_eq]
  · exact Prod.ext hregion.1 (Prod.ext hregion.2 htype)

section

variable {s : VmFork} (h : s.OnePage)
include h

theorem OnePage.supplied {a : ForkAllocs} (hnew : a.new = .ok 0x8000 ∨ a.new = .error .nomem)
    (hpage : ∀ x, a.page = some x → x = 0x7000) (htable : ∀ x, a.table = some x → x = 0x8000) :
    s.Supplied fun _ ↦ a := by
  have hone : ∀ p ∈ s.alct.frees ++ s.alct.lives, p = 0x1060 := by simp [h.frees, h.lives]
  have hasked : ∀ {p x}, s.Asked (fun _ ↦ a) p x → p = 0x1060 ∧ (x = 0x7000 ∨ x = 0x8000) := by
    rintro p x ⟨hp, hx | ⟨-, hx⟩⟩
    · exact ⟨hone p (mem_append_right _ hp.1), .inl (hpage x hx)⟩
    · exact ⟨hone p (mem_append_right _ hp.1), .inr (htable x hx)⟩
  refine ⟨fun p hp ↦ ?_, fun p _ vp hvp ↦ ?_, fun p hp q hq _ _ _ ↦ (hone p hp).trans (hone q hq).symm,
    fun p x hx ↦ ?_, fun p q x hx hx' ↦ (hasked hx).1.trans (hasked hx').1.symm, fun p x _ hx hx' ↦ ?_⟩
  · rcases hnew with hnew | hnew <;> simp [hnew] at hp
  · obtain rfl : vp = 0x8000 := by grind
    refine ⟨by unfold VpageAlct.IsDesc addressSpace vpageTSize; omega, fun hmem ↦ ?_⟩
    exact absurd (hone _ hmem) (by decide)
  · rw [h.child]
    rcases (hasked hx).2 with rfl | rfl
    · exact exampleChild_unused (by decide) (by decide)
    · exact exampleChild_unused (by decide) (by decide)
  · exact absurd ((hpage x hx).symm.trans (htable x hx')) (by decide)

theorem OnePage.normal : s.Normal 0x1060 :=
  ⟨by simp [h.lives], (Prod.mk.inj (Prod.mk.inj h.region).2).2⟩

theorem OnePage.needsTable : s.NeedsTable 0x1060 := by
  refine ⟨h.normal, ?_, fun q hq hlt ↦ ?_⟩
  · rw [h.child, Ptb.HasTable, exampleChild_dir]
    simp
  · rw [(Prod.mk.inj h.region).1] at hlt
    omega

theorem OnePage.apart {a : ForkAllocs} (hpage : ∀ x, a.page = some x → x = 0x7000)
    (htable : ∀ x, a.table = some x → x = 0x8000) : s.Apart fun _ ↦ a := by
  have hnot : ∀ x, x % pageSize = 0 → x ∉ [0x2000, 0x4000, 0x5000] → ¬ s.old.ptb.Owns x := by
    intro x hunit hx howns
    rw [h.parent] at howns
    exact hx (examplePtb_owns hunit howns)
  refine ⟨h.inv, ⟨fun va _ ↦ ?_, fun va _ _ ↦ ?_, hnot _ ?_ ?_, fun va _ f hf ↦ ?_⟩, ?_⟩
  · rw [h.child]
    exact exampleChild_plain va
  · rw [h.child, Ptb.entryAt, TwoLevel.lookup_of_dir_none (exampleChild_dir _)]
  · rw [show s.pde = exampleChild.pde from congrArg Ptb.pde h.child]
    decide
  · rw [show s.pde = exampleChild.pde from congrArg Ptb.pde h.child]
    decide
  · rw [h.child, exampleChild_dir] at hf
    cases hf
  · rintro p x ⟨-, hx | ⟨-, hx⟩⟩
    · rw [hpage x hx]
      exact hnot _ (by decide) (by decide)
    · rw [htable x hx]
      exact hnot _ (by decide) (by decide)

end

/-- Allocations that succeed, those without a page for a table, and those without a descriptor. -/
def exampleAllocs : ForkAllocs := ⟨.ok 0x8000, some 0x7000, some 0x8000⟩
def exampleNoTable : ForkAllocs := ⟨.ok 0x8000, some 0x7000, none⟩
def exampleNoDesc : ForkAllocs := ⟨.error .nomem, none, none⟩

/-- The fork of a process with one page. -/
theorem vmFork_forked_example : ∃ s s' : VmFork, s.alct.lives.map (region s.alct) = [(0, 4096, .umNormal)] ∧
    s.vmFork (fun _ ↦ exampleAllocs) = .ok (.ok, s') ∧ ForkedChild s s' ∧ KeptParent s s' := by
  obtain ⟨s, h⟩ := onePage_exists
  have hpage : ∀ x, exampleAllocs.page = some x → x = 0x7000 := fun x hx ↦ (Option.some_inj.mp hx).symm
  have htable : ∀ x, exampleAllocs.table = some x → x = 0x8000 := fun x hx ↦ (Option.some_inj.mp hx).symm
  obtain ⟨s', hrun, hforked, hkept⟩ := vmFork_forked h.forkable (h.apart hpage htable)
    (h.supplied (.inl rfl) hpage htable) ⟨fun p _ ↦ ⟨⟨_, rfl⟩, fun _ ↦ rfl, fun _ ↦ rfl⟩, fun p _ ↦ ⟨_, rfl⟩⟩
  exact ⟨s, s', by simp [h.lives, h.region], hrun, hforked, hkept⟩

/-- The fork of the process gives the locks back if there is a page for the table, and does not if there is
none. -/
theorem locks_released_example : ∃ s : VmFork,
    (∃ err s', s.vmFork (fun _ ↦ exampleAllocs) = .ok (err, s') ∧ s'.lock = false ∧ s'.ncli = s.ncli ∧
      s'.ptbLock = false) ∧
    ¬ ∃ err s', s.vmFork (fun _ ↦ exampleNoTable) = .ok (err, s') ∧ s'.lock = false ∧
      s'.ncli = s.ncli ∧ s'.ptbLock = false := by
  obtain ⟨s, h⟩ := onePage_exists
  have hpage : ∀ x, exampleAllocs.page = some x → x = 0x7000 := fun x hx ↦ (Option.some_inj.mp hx).symm
  have htable : ∀ x, exampleAllocs.table = some x → x = 0x8000 := fun x hx ↦ (Option.some_inj.mp hx).symm
  have hsup : s.Supplied fun _ ↦ exampleAllocs := h.supplied (.inl rfl) hpage htable
  have hsup' : s.Supplied fun _ ↦ exampleNoTable :=
    h.supplied (.inl rfl) hpage fun x hx ↦ absurd hx (by simp [exampleNoTable])
  refine ⟨s, ((locks_released_iff s.ptb none 0 0 0 0 s _).2 h.forkable hsup).mpr
    ⟨fun p _ ↦ ⟨⟨_, rfl⟩, fun _ ↦ rfl, fun _ ↦ rfl⟩, fun p _ ↦ ⟨_, rfl⟩⟩, fun hreleased ↦ ?_⟩
  have hserved := ((locks_released_iff s.ptb none 0 0 0 0 s _).2 h.forkable hsup').mp hreleased
  have hneeds := (hserved.live 0x1060 h.normal.1).2.2 h.needsTable
  simp [exampleNoTable] at hneeds

/-- A `ptb_map` and a `vm_fork` without memory: each returns an error with its lock held, and the next call on the
same object waits for ever. -/
theorem locks_kept : (∃ t t' : Ptb, t.lock = false ∧ t.ptbMap none 0 0x5000 1 1 = .ok (.nomem, t') ∧
      t'.lock = true ∧ t'.ptbMap (some 0x7000) 0 0x5000 1 1 = .error .endless) ∧
    ∃ s s' : VmFork, s.lock = false ∧ s.vmFork (fun _ ↦ exampleNoDesc) =
      .ok (.nomem, s') ∧ s'.lock = true ∧ s'.ncli = s.ncli + 1 ∧
      s'.vmFork (fun _ ↦ exampleAllocs) = .error .endless := by
  constructor
  · refine ⟨exampleChild, { exampleChild with lock := true }, rfl, ?_, rfl, rfl⟩
    have hno : ¬ exampleChild.HasTable 0 := by
      rw [Ptb.HasTable, exampleChild_dir]
      simp
    obtain ⟨-, -, hrun⟩ | ⟨hyes, -⟩ | ⟨hyes, -⟩ := Ptb.ptbMap_cases exampleChild_inv
      (show Ptb.PageAddr 0 by decide) (show Ptb.PageAddr 0x5000 by decide) (exampleChild_plain 0)
      (show ∀ p, none = some p → exampleChild.Unused p by simp) 1 1
    · exact hrun
    · exact absurd hyes hno
    · exact absurd hyes (by simpa using hno)
  · obtain ⟨s, h⟩ := onePage_exists
    have hlock : s.spinLockIrqsave = .ok { s with lock := true, ncli := s.ncli + 1 } := by
      rw [spinLockIrqsave, h.forkable.unlocked]
      rfl
    obtain ⟨covered, hvalid⟩ := h.forkable.lists
    obtain ⟨T, hT, -, hinorder⟩ := hvalid.trees.live_tree
    have hfirst : Rbt.rbtFirst s.alct.allocedRbt = .ok (0x1060 + vpageRbtNode) := by
      rw [Rbt.rbtFirst_eq hT, hinorder, h.lives]
      rfl
    refine ⟨s, ({ s with lock := true, ncli := s.ncli + 1 } : VmFork).setNew s.new.vmInit, h.forkable.unlocked,
      ?_, rfl, rfl, rfl⟩
    refine bind_eq_ok.mpr ⟨_, hlock, bind_eq_ok.mpr ⟨(.nomem, _), bind_eq_ok.mpr ⟨_, hfirst, ?_⟩, rfl⟩⟩
    exact Rbt.rbtRep_of_error (by decide) (by decide) rfl (by decide)

end VmFork

end Lanthorn
