import Lanthorn.Kernel.RbtUpdate

/-!
# Walks over the trees of `lib/rbt.c`

`rbt_first` and the loop `rbt_rep` of `rbt.h`, whose body may write the memory of the tree as long as it leaves
the tree itself alone. `rbtRep_rule` is the rule for such a loop: what a round keeps for the nodes done and the
nodes left, the loop keeps, and a round that fails for good spoils the loop.

`rbtUpdate_keeps` says which nodes `rbt_update` touches: what the update function keeps at the nodes of the
tree, `rbt_update` keeps.
-/

namespace Lanthorn.Rbt

open Library Tree List

/-! ### `rbt_first` and `rbt_rep` -/

/-- The loop of `rbt_first`. -/
def firstLoop (m : TreeMem) : ℕ → ℕ → Result ℕ
  | 0, _ => throw .endless
  | fuel + 1, res => do
    let tmp ← rbtPrev m res
    if tmp = 0 then return res else firstLoop m fuel tmp

/-- `rbt_first`. -/
def rbtFirst (t : Rbt) : Result ℕ := if t.root = 0 then return 0 else firstLoop t.mem addressSpace t.root

/-- The loop `rbt_rep` from a node on, over the tree in the memory `mem` of a state. The body returns an error
code, and any but `E_OK` ends the loop. -/
def rbtRep {σ : Type} (mem : σ → TreeMem) (body : ℕ → σ → Result (Errno × σ)) : ℕ → ℕ → σ → Result (Errno × σ)
  | 0, _, _ => throw .endless
  | fuel + 1, p, s =>
    if p = 0 then return (.ok, s)
    else do
      let (err, s) ← body p s
      if err ≠ .ok then return (err, s)
      else do
        let p ← rbtNext (mem s) p
        rbtRep mem body fuel p s

variable {t : Rbt} {T : Tree} {fuel : ℕ}

theorem firstLoop_eq {x : ℕ} {xs ys : List ℕ} (h : Holds t T) (hinorder : T.inorder = xs ++ x :: ys)
    (hfuel : xs.length < fuel) : firstLoop t.mem fuel x = .ok (T.inorder.headD 0) := by
  induction xs using List.reverseRecOn generalizing x ys fuel with
  | nil =>
    obtain ⟨fuel, rfl⟩ := exists_succ hfuel
    simp [firstLoop, rbtPrev_eq h hinorder, hinorder]
  | append_singleton xs y ih =>
    obtain ⟨fuel, rfl⟩ := exists_succ hfuel
    have hy : y ≠ 0 := h.rep.ne_zero (by simp [hinorder])
    have hrest := ih (show T.inorder = xs ++ y :: x :: ys by simpa using hinorder)
      (show xs.length < fuel by simpa using hfuel)
    simpa [firstLoop, rbtPrev_eq h hinorder, hy] using hrest

theorem rbtFirst_eq (h : Holds t T) : rbtFirst t = .ok (T.inorder.headD 0) := by
  by_cases hnil : T = .nil
  · have hroot : t.root = 0 := by rw [h.root_eq, hnil, root_nil]
    simp [rbtFirst, hroot, hnil]
  · have hroot : t.root ≠ 0 := by
      rw [h.root_eq]
      exact h.rep.root_eq_zero_iff.not.mpr hnil
    have hmem : t.root ∈ T.inorder := h.root_eq ▸ mem_root hnil
    obtain ⟨xs, ys, hinorder⟩ := append_of_mem hmem
    have hlength : xs.length < addressSpace := by
      have hsize := h.size_lt
      rw [← length_inorder, hinorder, length_append] at hsize
      omega
    rw [rbtFirst, if_neg hroot, firstLoop_eq h hinorder hlength]

theorem rbtRep_from {σ : Type} (h : Holds t T) (f : σ → ℕ → σ) {ys zs : List ℕ}
    (hinorder : T.inorder = ys ++ zs) (hfuel : zs.length < fuel) (s : σ) :
    rbtRep (fun _ ↦ t.mem) (fun p s ↦ .ok (.ok, f s p)) fuel (zs.headD 0) s = .ok (.ok, zs.foldl f s) := by
  induction zs generalizing ys fuel s with
  | nil =>
    obtain ⟨fuel, rfl⟩ := exists_succ hfuel
    simp [rbtRep]
  | cons z zs ih =>
    obtain ⟨fuel, rfl⟩ := exists_succ hfuel
    have hz : z ≠ 0 := h.rep.ne_zero (by simp [hinorder])
    have hrest := ih (show T.inorder = (ys ++ [z]) ++ zs by simpa using hinorder)
      (show zs.length < fuel by simpa using hfuel) (f s z)
    rw [headD_cons, rbtRep, if_neg hz, foldl_cons, ← hrest]
    simp [rbtNext_eq h hinorder]

section

variable {σ : Type} {mem : σ → TreeMem} {body : ℕ → σ → Result (Errno × σ)}

theorem rbtRep_of_error {p : ℕ} {s s' : σ} {err : Errno} (hfuel : 0 < fuel) (hp : p ≠ 0)
    (hbody : body p s = .ok (err, s')) (herr : err ≠ .ok) : rbtRep mem body fuel p s = .ok (err, s') := by
  obtain ⟨fuel, rfl⟩ := exists_succ hfuel
  rw [rbtRep, if_neg hp]
  refine bind_eq_ok.mpr ⟨(err, s'), hbody, ?_⟩
  dsimp only
  rw [if_pos herr]
  rfl

theorem rbtRep_keeps {P : σ → Prop} (hbody : ∀ x s err s', P s → body x s = .ok (err, s') → P s') {p : ℕ}
    {s s' : σ} {err : Errno} (h : P s) (hrun : rbtRep mem body fuel p s = .ok (err, s')) : P s' := by
  induction fuel generalizing p s with
  | zero => cases hrun
  | succ fuel ih =>
    rw [rbtRep] at hrun
    split_ifs at hrun
    · cases hrun
      exact h
    · obtain ⟨⟨err₁, s₁⟩, hround, hrun⟩ := bind_eq_ok.mp hrun
      have h₁ := hbody p s err₁ s₁ h hround
      dsimp only at hrun
      split_ifs at hrun
      · cases hrun
        exact h₁
      · obtain ⟨p', -, hrun⟩ := bind_eq_ok.mp hrun
        exact ih h₁ hrun

/-- The rule for `rbt_rep`. `I done rest s` holds before a round, with the nodes that are left; a node is
`Fine` if its round succeeds and keeps `I`. After a round that is not fine the loop ends with an error or its
state is `Stuck` for good. -/
theorem rbtRep_rule {I : List ℕ → List ℕ → σ → Prop} {Fine : ℕ → Prop} {Stuck : σ → Prop}
    (hnext : ∀ done x rest s, I (done ++ [x]) rest s → rbtNext (mem s) x = .ok (rest.headD 0))
    (hfine : ∀ done x rest s, I done (x :: rest) s → Fine x →
      ∃ s', body x s = .ok (.ok, s') ∧ I (done ++ [x]) rest s')
    (hfails : ∀ done x rest s, I done (x :: rest) s → ¬ Fine x → ∀ s', body x s = .ok (.ok, s') → Stuck s')
    (hstuck : ∀ x s err s', Stuck s → body x s = .ok (err, s') → Stuck s')
    (hnode : ∀ done x rest s, I done (x :: rest) s → x ≠ 0) {done rest : List ℕ} {s : σ} (h : I done rest s)
    (hfuel : rest.length < fuel) : ((∀ x ∈ rest, Fine x) →
      ∃ s', rbtRep mem body fuel (rest.headD 0) s = .ok (.ok, s') ∧ I (done ++ rest) [] s') ∧
    ((∃ x ∈ rest, ¬ Fine x) → ∀ s', rbtRep mem body fuel (rest.headD 0) s = .ok (.ok, s') → Stuck s') := by
  induction rest generalizing done s fuel with
  | nil =>
    obtain ⟨fuel, rfl⟩ := exists_succ hfuel
    refine ⟨fun _ ↦ ⟨s, by simp [rbtRep], by simpa using h⟩, ?_⟩
    rintro ⟨x, hx, -⟩
    exact absurd hx not_mem_nil
  | cons x rest ih =>
    obtain ⟨fuel, rfl⟩ := exists_succ hfuel
    have hx := hnode done x rest s h
    by_cases hgood : Fine x
    · obtain ⟨s₁, hbody, h₁⟩ := hfine done x rest s h hgood
      obtain ⟨hall, hsome⟩ := ih h₁ (show rest.length < fuel by simpa using hfuel)
      have hrun : rbtRep mem body (fuel + 1) ((x :: rest).headD 0) s = rbtRep mem body fuel (rest.headD 0) s₁ := by
        simp [rbtRep, hx, hbody, hnext done x rest s₁ h₁]
      grind
    · refine ⟨fun hrest ↦ absurd (hrest x mem_cons_self) hgood, fun _ s' hrun ↦ ?_⟩
      rw [rbtRep, headD_cons, if_neg hx] at hrun
      obtain ⟨⟨err, s₁⟩, hbody, hrun⟩ := bind_eq_ok.mp hrun
      dsimp only at hrun
      split_ifs at hrun with herr
      · exact absurd (ok_pair_inj hrun).1 herr
      · obtain ⟨p', -, hrun⟩ := bind_eq_ok.mp hrun
        rw [not_not] at herr
        exact rbtRep_keeps hstuck (hfails done x rest s h hgood s₁ (herr ▸ hbody)) hrun

end

/-! ### What `rbt_update` touches -/

section Update

variable {β : Type*} {m : TreeMem} {func : β → ℕ → β} {b b' : β} {P : β → Prop}

theorem updateLoop_keeps {fs : List Frame} {t : Tree} {fuel : ℕ} (hrep : Represents m 0 (plug fs t))
    (ht : t ≠ .nil) (hP : ∀ b, ∀ x ∈ (plug fs t).inorder, P b → P (func b x)) (hb : P b)
    (hrun : updateLoop m func fuel t.root b = .ok b') : P b' := by
  induction fs generalizing t fuel b with
  | nil =>
    cases fuel with
    | zero => cases hrun
    | succ fuel =>
      rw [plug_nil] at hrep hP
      rw [updateLoop, if_pos (hrep.parent_root ht)] at hrun
      cases hrun
      exact hP b _ (mem_root ht) hb
  | cons F fs ih =>
    cases fuel with
    | zero => cases hrun
    | succ fuel =>
      obtain ⟨hcontext, hrept⟩ := (represents_plug _ _ _).mp hrep
      obtain ⟨-, hrepfill⟩ := (represents_plug m fs (F.fill t)).mp hrep
      have hparent : m.parent t.root = F.addr := hrept.parent_root ht
      have hmem : ∀ x, x ∈ t.inorder ∨ x ∈ F.sibling.inorder → x ∈ (plug (F :: fs) t).inorder := fun x hx ↦
        mem_plug.mpr (hx.imp id fun hx ↦ mem_around_of_sibling mem_cons_self hx)
      have hchild : ∀ d, m.child d F.addr ≠ 0 → m.child d F.addr ∈ (plug (F :: fs) t).inorder := by
        intro d hd
        obtain ⟨-, -, -, hnear, hfar, -, -⟩ := (represents_join ..).mp hrepfill
        by_cases hside : d = F.side
        · rw [hside, hnear]
          exact hmem _ (.inl (mem_root ht))
        · rw [side_eq_flip_of_ne hside, hfar] at hd ⊢
          grind [mem_root, root_nil]
      have hself : P (func b t.root) := hP b _ (hmem _ (.inl (mem_root ht))) hb
      have hsibling : P (updateSibling m func t.root F.addr (func b t.root)) := by
        unfold updateSibling
        split_ifs with hright hleft
        all_goals grind
      have hF0 : F.addr ≠ 0 := hcontext.1
      rw [updateLoop_of_parent (hparent ▸ hF0), hparent] at hrun
      rw [show F.addr = (F.fill t).root from (root_join ..).symm] at hrun hsibling
      exact ih hrep join_ne_nil hP hsibling hrun

section

variable {t : Rbt} {T : Tree} {x : ℕ} (hT : Holds t T) (hx : x ∈ T.inorder)
  (hP : ∀ b, ∀ y ∈ T.inorder, P b → P (func b y)) (hb : P b)
include hT hx hP hb

theorem rbtUpdate_keeps (hrun : rbtUpdate t.mem func x b = .ok b') : P b' := by
  obtain ⟨fs, l, c, r, rfl⟩ := exists_plug_of_mem hx
  exact updateLoop_keeps hT.rep (by simp) hP hb hrun

theorem rbtInsertUpdate_keeps (hrun : rbtInsertUpdate t.mem func x b = .ok b') : P b' := by
  refine rbtUpdate_keeps hT ?_ hP hb hrun
  obtain ⟨fs, l, c, r, rfl⟩ := exists_plug_of_mem hx
  obtain ⟨-, -, -, -, hleft, hright, hl, hr⟩ := hT.represents
  split_ifs with hl0 hr0
  · rw [hleft] at hl0 ⊢
    exact mem_plug.mpr (.inl (by simp [mem_root (hl.root_eq_zero_iff.not.mp hl0)]))
  · rw [hright] at hr0 ⊢
    exact mem_plug.mpr (.inl (by simp [mem_root (hr.root_eq_zero_iff.not.mp hr0)]))
  · exact hx

end

theorem rbtDeleteUpdateEnd_keeps {t t' : Rbt} {T : Tree} {x start : ℕ} (hT : Holds t T) (hrb : RedBlack T)
    (hx : x ∈ T.inorder) (hbegin : rbtDeleteUpdateBegin t.mem x = .ok start) (hdelete : rbtDelete t x = .ok t')
    (hP : ∀ b, ∀ y ∈ T.inorder, P b → P (func b y)) (hb : P b)
    (hrun : rbtDeleteUpdateEnd t'.mem func start b = .ok b') : P b' := by
  obtain ⟨t'', T', hdelete', hshape, hholds, -⟩ := rbtDelete_shape hT hrb hx
  obtain rfl := Except.ok.inj (hdelete.symm.trans hdelete')
  obtain ⟨c, fs, s, rfl, hbegin', -⟩ := rbtDeleteUpdateBegin_eq hT hshape
  obtain rfl := Except.ok.inj (hbegin.symm.trans hbegin')
  have hsub : ∀ y ∈ (removeFix c fs s).inorder, y ∈ T.inorder := fun y hy ↦
    mem_of_mem_erase (hshape.inorder hT.nodup ▸ hy)
  have hmem : (if s = .nil then hook fs else s.root) ≠ 0 →
      (if s = .nil then hook fs else s.root) ∈ (removeFix c fs s).inorder := by
    rw [inorder_removeFix, mem_plug]
    split_ifs with hnil
    all_goals grind [hook_eq_zero_or_mem, mem_root]
  rw [rbtDeleteUpdateEnd] at hrun
  by_cases hstart : (if s = .nil then hook fs else s.root) ≠ 0
  · rw [if_pos hstart] at hrun
    exact rbtUpdate_keeps hholds (hmem hstart) (fun b y hy ↦ hP b y (hsub y hy)) hb hrun
  · rw [if_neg hstart] at hrun
    cases hrun
    exact hb

end Update

end Lanthorn.Rbt
