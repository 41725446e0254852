import Mathlib.Data.List.Nodup
import Mathlib.Logic.Function.Basic

/-!
# Circular doubly linked lists

A memory of links gives every cell a predecessor `p` and a successor `n`. A ring is a head cell followed by the
cells of a list and closed onto the head, with `n` and `p` mutually inverse along the way. The head is a sentinel:
it is a cell of the ring and never an element of the list.

`Segment` is an open stretch of a ring between two cells. It splits at every cell it passes (`segment_append_cons`)
and depends only on the successors of the cells it leaves and the predecessors of the cells it enters
(`Segment.congr`), so a write elsewhere keeps it. `IsRing` is a closed segment without repeated cells.

`link`, `unlink` and `initHead` are the pointer updates of an intrusive list. `IsRing.link_back`,
`IsRing.link_front`, `IsRing.unlink` and `isRing_initHead` say what list the ring holds afterwards, and
`link_eq_of_ne`, `unlink_eq_of_ne` which cells they leave alone, from which a second ring without a common cell is
kept (`IsRing.congr`).
-/

namespace Lanthorn.Library

open List

/-- A memory of links: the predecessor and the successor stored in every cell. -/
structure Links (ν : Type*) where
  p : ν → ν
  n : ν → ν

namespace Links

variable {ν : Type*} [DecidableEq ν]

def setP (L : Links ν) (cell value : ν) : Links ν := { L with p := Function.update L.p cell value }

def setN (L : Links ν) (cell value : ν) : Links ν := { L with n := Function.update L.n cell value }

@[simp] theorem setP_p (L : Links ν) (cell value x : ν) :
    (L.setP cell value).p x = if x = cell then value else L.p x :=
  Function.update_apply _ _ _ _

@[simp] theorem setP_n (L : Links ν) (cell value : ν) : (L.setP cell value).n = L.n := rfl

@[simp] theorem setN_n (L : Links ν) (cell value x : ν) :
    (L.setN cell value).n x = if x = cell then value else L.n x :=
  Function.update_apply _ _ _ _

@[simp] theorem setN_p (L : Links ν) (cell value : ν) : (L.setN cell value).p = L.p := rfl

def initHead (L : Links ν) (head : ν) : Links ν := (L.setN head head).setP head head

/-- Put a cell between two neighbouring cells. -/
def link (L : Links ν) (cell before after : ν) : Links ν :=
  (((L.setP cell before).setN cell after).setN before cell).setP after cell

/-- Make the two neighbours of a cell point at each other. -/
def unlink (L : Links ν) (cell : ν) : Links ν :=
  (L.setN (L.p cell) (L.n cell)).setP (L.n cell) (L.p cell)

/-- Two memories hold the same links in a cell. -/
def AgreeAt {ν : Type*} (L M : Links ν) (cell : ν) : Prop := M.p cell = L.p cell ∧ M.n cell = L.n cell

theorem AgreeAt.trans {ν : Type*} {L M N : Links ν} {cell : ν} (h : L.AgreeAt M cell)
    (h' : M.AgreeAt N cell) : L.AgreeAt N cell := ⟨h'.1.trans h.1, h'.2.trans h.2⟩

end Links

/-! ### Segments -/

section Segment

variable {ν : Type*}

/-- The cells of a list, in order, lead from one cell to another along `n`, with `p` the way
back. -/
def Segment (L : Links ν) : ν → List ν → ν → Prop
  | a, [], b => L.n a = b ∧ L.p b = a
  | a, x :: xs, b => L.n a = x ∧ L.p x = a ∧ Segment L x xs b

@[simp] theorem segment_nil (L : Links ν) (a b : ν) :
    Segment L a [] b ↔ L.n a = b ∧ L.p b = a := Iff.rfl

@[simp] theorem segment_cons (L : Links ν) (a x : ν) (xs : List ν) (b : ν) :
    Segment L a (x :: xs) b ↔ L.n a = x ∧ L.p x = a ∧ Segment L x xs b := Iff.rfl

theorem segment_append_cons (L : Links ν) (a x : ν) (xs ys : List ν) (b : ν) :
    Segment L a (xs ++ x :: ys) b ↔ Segment L a xs x ∧ Segment L x ys b := by
  induction xs generalizing a with
  | nil => simp [and_assoc]
  | cons y xs ih => simp [ih, and_assoc]

variable {L : Links ν} {a b : ν} {xs : List ν}

theorem Segment.congr {M : Links ν} (hsegment : Segment L a xs b)
    (hn : ∀ x, x ∈ a :: xs → M.n x = L.n x) (hp : ∀ x, x ∈ xs ++ [b] → M.p x = L.p x) : Segment M a xs b := by
  induction xs generalizing a with
  | nil =>
    obtain ⟨hnext, hprev⟩ := hsegment
    exact ⟨(hn a (by simp)).trans hnext, (hp b (by simp)).trans hprev⟩
  | cons x xs ih =>
    obtain ⟨hnext, hprev, hrest⟩ := hsegment
    refine ⟨(hn a (by simp)).trans hnext, (hp x (by simp)).trans hprev, ih hrest ?_ ?_⟩
    all_goals grind

theorem Segment.unique {ys : List ν} (hxs : Segment L a xs b) (hys : Segment L a ys b)
    (hbx : b ∉ xs) (hby : b ∉ ys) : xs = ys := by
  induction xs generalizing a ys with
  | nil =>
    cases ys with
    | nil => rfl
    | cons y ys => exact absurd (hys.1.symm.trans hxs.1) (by simp_all)
  | cons x xs ih =>
    cases ys with
    | nil => exact absurd (hxs.1.symm.trans hys.1) (by simp_all)
    | cons y ys =>
      obtain rfl : x = y := hxs.1.symm.trans hys.1
      rw [ih hxs.2.2 hys.2.2 (by simp_all) (by simp_all)]

theorem Segment.next_mem {x : ν} (hsegment : Segment L a xs b) (hx : x ∈ a :: xs) :
    L.n x ∈ xs ++ [b] ∧ L.p (L.n x) = x := by
  induction xs generalizing a with
  | nil =>
    obtain rfl : x = a := by simpa using hx
    exact ⟨by simp [hsegment.1], by rw [hsegment.1, hsegment.2]⟩
  | cons y ys ih =>
    obtain ⟨hnext, hprev, hrest⟩ := hsegment
    rcases List.mem_cons.mp hx with rfl | hx
    · exact ⟨by simp [hnext], by rw [hnext, hprev]⟩
    · exact ⟨mem_cons_of_mem _ (ih hrest hx).1, (ih hrest hx).2⟩

theorem Segment.prev_mem {x : ν} (hsegment : Segment L a xs b) (hx : x ∈ xs ++ [b]) :
    L.p x ∈ a :: xs ∧ L.n (L.p x) = x := by
  induction xs generalizing a with
  | nil =>
    obtain rfl : x = b := by simpa using hx
    exact ⟨by simp [hsegment.2], by rw [hsegment.2, hsegment.1]⟩
  | cons y ys ih =>
    obtain ⟨hnext, hprev, hrest⟩ := hsegment
    rcases List.mem_cons.mp hx with rfl | hx
    · exact ⟨by simp [hprev], by rw [hprev, hnext]⟩
    · exact ⟨mem_cons_of_mem _ (ih hrest hx).1, (ih hrest hx).2⟩

end Segment

/-! ### Rings -/

section Ring

variable {ν : Type*}

/-- A head cell followed by the cells of a list and closed onto the head, no cell twice. -/
structure IsRing (L : Links ν) (head : ν) (xs : List ν) : Prop where
  nodup : (head :: xs).Nodup
  segment : Segment L head xs head

variable {L : Links ν} {head : ν} {xs : List ν}

theorem IsRing.congr {M : Links ν} (hring : IsRing L head xs)
    (hagree : ∀ x, x ∈ head :: xs → L.AgreeAt M x) : IsRing M head xs := by
  refine ⟨hring.nodup, hring.segment.congr (fun x hx ↦ (hagree x hx).2) fun x hx ↦ ?_⟩
  refine (hagree x ?_).1
  grind

theorem IsRing.unique {ys : List ν} (hxs : IsRing L head xs) (hys : IsRing L head ys) : xs = ys :=
  hxs.segment.unique hys.segment (List.nodup_cons.mp hxs.nodup).1 (List.nodup_cons.mp hys.nodup).1

theorem IsRing.n_head (hring : IsRing L head xs) : L.n head = xs.head?.getD head := by
  cases xs with
  | nil => exact hring.segment.1
  | cons x xs => exact hring.segment.1

theorem IsRing.n_head_eq_iff (hring : IsRing L head xs) : L.n head = head ↔ xs = [] := by
  rw [hring.n_head]
  cases xs with
  | nil => simp
  | cons x xs => grind [hring.nodup]

theorem IsRing.neighbours_mem {x : ν} (hring : IsRing L head xs) (hx : x ∈ head :: xs) :
    L.p x ∈ head :: xs ∧ L.n x ∈ head :: xs := by
  have hswap : ∀ y, y ∈ xs ++ [head] ↔ y ∈ head :: xs := by simp [or_comm]
  grind [hring.segment.prev_mem, hring.segment.next_mem]

theorem IsRing.mutually_inverse (hring : IsRing L head xs) :
    ∀ x ∈ head :: xs, L.p (L.n x) = x ∧ L.n (L.p x) = x := by
  intro x hx
  have hswap : x ∈ xs ++ [head] := by simpa [or_comm] using hx
  exact ⟨(hring.segment.next_mem hx).2, (hring.segment.prev_mem hswap).2⟩

end Ring

/-! ### The operations on a ring -/

section Operations

variable {ν : Type*} [DecidableEq ν]

theorem isRing_initHead (L : Links ν) (head : ν) : IsRing (L.initHead head) head [] :=
  ⟨by simp, by simp [Links.initHead]⟩

variable {head x cell : ν} {L : Links ν} {xs : List ν}

theorem initHead_eq_of_ne (L : Links ν) (hx : x ≠ head) : L.AgreeAt (L.initHead head) x := by
  simp [Links.AgreeAt, Links.initHead, hx]

theorem link_eq_of_ne (L : Links ν) {before after : ν} (hcell : x ≠ cell) (hbefore : x ≠ before)
    (hafter : x ≠ after) : L.AgreeAt (L.link cell before after) x := by
  simp [Links.AgreeAt, Links.link, hcell, hbefore, hafter]

theorem unlink_eq_of_ne (L : Links ν) (hbefore : x ≠ L.p cell) (hafter : x ≠ L.n cell) :
    L.AgreeAt (L.unlink cell) x := by simp [Links.AgreeAt, Links.unlink, hbefore, hafter]

theorem Segment.link_after {a z after : ν} (hsegment : Segment L a xs z)
    (hcell : cell ∉ a :: (xs ++ [z])) (hz : z ∉ a :: xs) (hafter : after ∉ xs ++ [z]) :
    Segment (L.link cell z after) a xs z := by
  refine hsegment.congr (fun x hx ↦ ?_) fun x hx ↦ ?_
  · have hxz : x ≠ z := fun h ↦ hz (h ▸ hx)
    have hxc : x ≠ cell := fun h ↦ hcell (h ▸ mem_append_left [z] hx)
    simp [Links.link, hxz, hxc]
  · have hxa : x ≠ after := fun h ↦ hafter (h ▸ hx)
    have hxc : x ≠ cell := fun h ↦ hcell (h ▸ mem_cons_of_mem a hx)
    simp [Links.link, hxa, hxc]

theorem Segment.link_before {a z before : ν} (hsegment : Segment L a xs z)
    (hcell : cell ∉ a :: (xs ++ [z])) (ha : a ∉ xs ++ [z]) (hbefore : before ∉ a :: xs) :
    Segment (L.link cell before a) a xs z := by
  refine hsegment.congr (fun x hx ↦ ?_) fun x hx ↦ ?_
  · have hxb : x ≠ before := fun h ↦ hbefore (h ▸ hx)
    have hxc : x ≠ cell := fun h ↦ hcell (h ▸ mem_append_left [z] hx)
    simp [Links.link, hxb, hxc]
  · have hxa : x ≠ a := fun h ↦ ha (h ▸ hx)
    have hxc : x ≠ cell := fun h ↦ hcell (h ▸ mem_cons_of_mem a hx)
    simp [Links.link, hxa, hxc]

theorem IsRing.link_back (hring : IsRing L head xs) (hcell : cell ∉ head :: xs) :
    IsRing (L.link cell (L.p head) head) head (xs ++ [cell]) := by
  obtain ⟨hnodup, hsegment⟩ := hring
  refine ⟨?_, ?_⟩
  · rw [← cons_append, List.nodup_append]
    exact ⟨hnodup, by simp, by grind⟩
  · rw [segment_append_cons]
    rcases eq_nil_or_concat' xs with rfl | ⟨ys, y, rfl⟩
    · rw [hsegment.2]
      simp only [mem_singleton] at hcell
      simp [Links.link, hcell]
    · obtain ⟨hinit, hlast⟩ := (segment_append_cons L head y ys [] head).mp hsegment
      rw [hlast.2]
      have hcy : y ≠ cell := by grind
      have hch : head ≠ cell := by grind
      have hyh : y ≠ head := by grind
      refine ⟨?_, by simp [Links.link, hcy.symm]⟩
      rw [segment_append_cons]
      exact ⟨hinit.link_after (by simpa using hcell) (by grind) (by grind),
        by simp [Links.link, hch.symm]⟩

theorem IsRing.link_front (hring : IsRing L head xs) (hcell : cell ∉ head :: xs) :
    IsRing (L.link cell head (L.n head)) head (cell :: xs) := by
  obtain ⟨hnodup, hsegment⟩ := hring
  have hch : cell ≠ head := by grind
  refine ⟨by grind, ?_⟩
  cases xs with
  | nil =>
    rw [hsegment.1]
    simp [Links.link, hch]
  | cons x xs =>
    obtain ⟨hnext, -, hrest⟩ := hsegment
    rw [hnext]
    have hxh : x ≠ head := by grind
    have hcx : cell ≠ x := by grind
    refine ⟨by simp [Links.link], by simp [Links.link, hcx], by simp [Links.link, hch], by simp [Links.link], ?_⟩
    exact hrest.link_before (by grind) (by grind) (by grind)

theorem IsRing.unlink {ys : List ν} (hring : IsRing L head (xs ++ cell :: ys)) :
    IsRing (L.unlink cell) head (xs ++ ys) := by
  obtain ⟨hnodup, hsegment⟩ := hring
  refine ⟨by grind, ?_⟩
  obtain ⟨hleft, hright⟩ := (segment_append_cons L head cell xs ys head).mp hsegment
  rcases eq_nil_or_concat' xs with rfl | ⟨ws, w, rfl⟩
  · cases ys with
    | nil => simp [Links.unlink, hleft.2, hright.1]
    | cons y ys =>
      obtain ⟨hnext, -, hrest⟩ := hright
      refine ⟨by simp [Links.unlink, hleft.2, hnext], by simp [Links.unlink, hleft.2, hnext],
        hrest.congr (fun x hx ↦ ?_) fun x hx ↦ ?_⟩
      · have hxh : x ≠ head := by grind
        simp [Links.unlink, hleft.2, hxh]
      · have hxy : x ≠ y := by grind
        simp [Links.unlink, hnext, hxy]
  · obtain ⟨hinit, hlast⟩ := (segment_append_cons L head w ws [] cell).mp hleft
    have hfront : Segment (L.unlink cell) head ws w := by
      refine hinit.congr (fun x hx ↦ ?_) fun x hx ↦ ?_
      · have hxw : x ≠ w := by grind
        simp [Links.unlink, hlast.2, hxw]
      · have hxn : x ≠ L.n cell := by
          cases ys with
          | nil => rw [hright.1]; grind
          | cons y ys => rw [hright.1]; grind
        simp [Links.unlink, hxn]
    rw [append_assoc, singleton_append, segment_append_cons]
    refine ⟨hfront, ?_⟩
    cases ys with
    | nil => simp [Links.unlink, hlast.2, hright.1]
    | cons y ys =>
      obtain ⟨hnext, -, hrest⟩ := hright
      refine ⟨by simp [Links.unlink, hlast.2, hnext], by simp [Links.unlink, hlast.2, hnext],
        hrest.congr (fun x hx ↦ ?_) fun x hx ↦ ?_⟩
      · have hxw : x ≠ w := by grind
        simp [Links.unlink, hlast.2, hxw]
      · have hxy : x ≠ y := by grind
        simp [Links.unlink, hnext, hxy]

end Operations

end Lanthorn.Library
