import Mathlib.Data.List.Perm.Basic
import Mathlib.Data.List.Pairwise
import Mathlib.Tactic.Common

/-!
# Partitions of a set of addresses into regions

A region has a start and a length. `Regions` says of a list of names that their regions are not empty, consist of
whole units, end below a limit, are pairwise apart, and cover exactly a given set of addresses. Nothing depends on
the order of the list (`Regions.perm`).

A region outside the set may be added (`Regions.add`), and some of the regions may be replaced by others that cover
the same addresses (`Regions.replace`).
-/

namespace Lanthorn.Library

open List Function

variable {ι : Type*}

/-- An address lies in the region of a name. -/
def InRegion (start len : ι → ℕ) (p : ι) (x : ℕ) : Prop := start p ≤ x ∧ x < start p + len p

def Apart (start len : ι → ℕ) (p q : ι) : Prop :=
  start p + len p ≤ start q ∨ start q + len q ≤ start p

/-- Regions of whole units below a limit that cover a set of addresses without overlap. -/
structure Regions (unit limit : ℕ) (start len : ι → ℕ) (ps : List ι) (covered : ℕ → Prop) : Prop where
  start_unit : ∀ p ∈ ps, start p % unit = 0
  len_unit : ∀ p ∈ ps, len p % unit = 0
  pos : ∀ p ∈ ps, 0 < len p
  bound : ∀ p ∈ ps, start p + len p < limit
  apart : ps.Pairwise (Apart start len)
  cover : ∀ x, covered x ↔ ∃ p ∈ ps, InRegion start len p x

variable {unit limit : ℕ} {start len start' len' : ι → ℕ} {ps qs rs : List ι} {p q : ι}
  {covered part : ℕ → Prop}

theorem Apart.symm (h : Apart start len p q) : Apart start len q p := Or.symm h

instance : Std.Symm (Apart start len) := ⟨fun _ _ ↦ Apart.symm⟩

theorem exists_common (hp : 0 < len p) (hq : 0 < len q) (h : ¬ Apart start len p q) :
    ∃ x, InRegion start len p x ∧ InRegion start len q x := by
  unfold Apart at h
  refine ⟨max (start p) (start q), ⟨?_, ?_⟩, ?_, ?_⟩ <;> omega

section

variable (h : Regions unit limit start len ps covered)
include h

theorem Regions.perm (hperm : ps.Perm qs) : Regions unit limit start len qs covered where
  start_unit p hp := h.start_unit p (hperm.mem_iff.mpr hp)
  len_unit p hp := h.len_unit p (hperm.mem_iff.mpr hp)
  pos p hp := h.pos p (hperm.mem_iff.mpr hp)
  bound p hp := h.bound p (hperm.mem_iff.mpr hp)
  apart := (hperm.pairwise_iff fun hpq ↦ Apart.symm hpq).mp h.apart
  cover x := by simp only [h.cover, hperm.mem_iff]

theorem Regions.congr (hagree : ∀ p ∈ ps, start' p = start p ∧ len' p = len p) :
    Regions unit limit start' len' ps covered where
  start_unit p hp := (hagree p hp).1 ▸ h.start_unit p hp
  len_unit p hp := (hagree p hp).2 ▸ h.len_unit p hp
  pos p hp := (hagree p hp).2 ▸ h.pos p hp
  bound p hp := by rw [(hagree p hp).1, (hagree p hp).2]; exact h.bound p hp
  apart := h.apart.imp_of_mem fun {p q} hp hq hpq ↦ by
    rwa [Apart, (hagree p hp).1, (hagree p hp).2, (hagree q hq).1, (hagree q hq).2]
  cover x := by grind [h.cover, InRegion]

theorem Regions.nodup : ps.Nodup := by
  refine h.apart.imp_of_mem fun {p q} hp _ hpq heq ↦ ?_
  subst heq
  have hpos := h.pos p hp
  unfold Apart at hpq
  omega

theorem Regions.eq_of_common (hp : p ∈ ps) (hq : q ∈ ps) {x : ℕ} (hxp : InRegion start len p x)
    (hxq : InRegion start len q x) : p = q := by
  by_contra hne
  have hapart := h.apart.forall hp hq hne
  unfold Apart at hapart
  unfold InRegion at hxp hxq
  omega

theorem Regions.add (hstart : start p % unit = 0) (hlen : len p % unit = 0) (hpos : 0 < len p)
    (hbound : start p + len p < limit) (hnew : ∀ x, InRegion start len p x → ¬ covered x) :
    Regions unit limit start len (p :: ps) fun x ↦ covered x ∨ InRegion start len p x where
  start_unit := List.forall_mem_cons.mpr ⟨hstart, h.start_unit⟩
  len_unit := List.forall_mem_cons.mpr ⟨hlen, h.len_unit⟩
  pos := List.forall_mem_cons.mpr ⟨hpos, h.pos⟩
  bound := List.forall_mem_cons.mpr ⟨hbound, h.bound⟩
  apart := by grind [pairwise_cons, h.apart, exists_common, h.pos, h.cover]
  cover x := by simp only [mem_cons, exists_eq_or_imp, h.cover, or_comm]

end

theorem Regions.replace (h : Regions unit limit start len (qs ++ ps) covered)
    (hnew : Regions unit limit start' len' rs part) (hpart : ∀ x, part x ↔ ∃ q ∈ qs, InRegion start len q x)
    (hagree : ∀ p ∈ ps, start' p = start p ∧ len' p = len p) :
    Regions unit limit start' len' (rs ++ ps) covered := by
  obtain ⟨hstart, hlen, hpos, hbound, hapart, hcover⟩ := h
  obtain ⟨-, hapart_ps, hcross⟩ := List.pairwise_append.mp hapart
  have hregion : ∀ p ∈ ps, ∀ x, InRegion start' len' p x ↔ InRegion start len p x := by
    intro p hp x
    rw [InRegion, InRegion, (hagree p hp).1, (hagree p hp).2]
  refine ⟨?_, ?_, ?_, ?_, List.pairwise_append.mpr ⟨hnew.apart, ?_, fun r hr p hp ↦ ?_⟩, fun x ↦ ?_⟩
  · grind [hnew.start_unit]
  · grind [hnew.len_unit]
  · refine List.forall_mem_append.mpr ⟨hnew.pos, fun p hp ↦ ?_⟩
    exact (hagree p hp).2 ▸ hpos p (by simp [hp])
  · refine List.forall_mem_append.mpr ⟨hnew.bound, fun p hp ↦ ?_⟩
    rw [(hagree p hp).1, (hagree p hp).2]
    exact hbound p (by simp [hp])
  · grind [hapart_ps.imp_of_mem, Apart]
  · -- a common address would be in one of the replaced regions
    by_contra hnot
    have hlenp : 0 < len' p := (hagree p hp).2 ▸ hpos p (by simp [hp])
    obtain ⟨x, hxr, hxp⟩ := exists_common (hnew.pos r hr) hlenp hnot
    obtain ⟨q, hq, hxq⟩ := (hpart x).mp ((hnew.cover x).mpr ⟨r, hr, hxr⟩)
    grind [Apart, InRegion]
  · simp only [hcover, mem_append, or_and_right, exists_or, ← hpart, hnew.cover]
    grind

theorem regions_nil : Regions unit limit start len [] fun _ ↦ False :=
  ⟨by simp, by simp, by simp, by simp, .nil, by simp⟩

theorem regions_singleton (hstart : start p % unit = 0) (hlen : len p % unit = 0) (hpos : 0 < len p)
    (hbound : start p + len p < limit) : Regions unit limit start len [p] (InRegion start len p) := by
  simpa using regions_nil.add hstart hlen hpos hbound fun _ _ h ↦ h

section Local

variable [DecidableEq ι]

section

variable (h : Regions unit limit start len ps covered) (hp : p ∈ ps)
include h hp

theorem Regions.join (hq : q ∈ ps) (hne : p ≠ q) {a : ℕ}
    (hadjacent : a = start p ∧ start p + len p = start q ∨ a = start q ∧ start q + len q = start p) :
    Regions unit limit (update start p a) (update len p (len p + len q))
      (ps.erase q) covered := by
  have hp' : p ∈ ps.erase q := (mem_erase_of_ne hne).mpr hp
  have hperm : ps.Perm ([p, q] ++ (ps.erase q).erase p) :=
    ((perm_cons_erase hq).trans ((perm_cons_erase hp').cons q)).trans (.swap ..)
  have hperm' : (ps.erase q).Perm ([p] ++ (ps.erase q).erase p) := perm_cons_erase hp'
  have hnodup : (ps.erase q).Nodup := h.nodup.erase q
  have hnew : Regions unit limit (update start p a) (update len p (len p + len q))
      [p] (InRegion (update start p a) (update len p (len p + len q)) p) := by
    have hstartp := h.start_unit p hp
    have hstartq := h.start_unit q hq
    have hlen := Nat.dvd_add (Nat.dvd_of_mod_eq_zero (h.len_unit p hp))
      (Nat.dvd_of_mod_eq_zero (h.len_unit q hq))
    have hpos := h.pos p hp
    have hboundp := h.bound p hp
    have hboundq := h.bound q hq
    refine regions_singleton ?_ ?_ ?_ ?_
    · rcases hadjacent with ⟨rfl, -⟩ | ⟨rfl, -⟩
      · simpa using hstartp
      · simpa using hstartq
    · simpa using Nat.mod_eq_zero_of_dvd hlen
    · simp only [update_self]
      omega
    · simp only [update_self]
      omega
  refine ((h.perm hperm).replace hnew (fun x ↦ ?_) fun r hr ↦ ?_).perm hperm'.symm
  · simp only [InRegion, update_self, mem_cons, not_mem_nil, or_false, exists_eq_or_imp, exists_eq_left]
    omega
  · have hrp : r ≠ p := (hnodup.mem_erase_iff.mp hr).1
    simp [hrp]

theorem Regions.cut {k : ℕ} (hk : 0 < k) (hlt : k < len p) (hunit : k % unit = 0)
    (hagree : ∀ r ∈ ps, r ≠ p → start' r = start r ∧ len' r = len r)
    (hparts : (start' p = start p ∧ len' p = k ∧ start' q = start p + k ∧ len' q = len p - k) ∨
      (start' q = start p ∧ len' q = k ∧ start' p = start p + k ∧ len' p = len p - k)) :
    Regions unit limit start' len' (q :: ps) covered := by
  have hperm : ps.Perm ([p] ++ ps.erase p) := perm_cons_erase hp
  have hbound := h.bound p hp
  have hstart := h.start_unit p hp
  have hstart' : (start p + k) % unit = 0 :=
    Nat.mod_eq_zero_of_dvd (Nat.dvd_add (Nat.dvd_of_mod_eq_zero hstart) (Nat.dvd_of_mod_eq_zero hunit))
  have hlen' : (len p - k) % unit = 0 :=
    Nat.mod_eq_zero_of_dvd (Nat.dvd_sub (Nat.dvd_of_mod_eq_zero (h.len_unit p hp)) (Nat.dvd_of_mod_eq_zero hunit))
  have hnew : Regions unit limit start' len' [q, p]
      fun x ↦ InRegion start' len' p x ∨ InRegion start' len' q x := by
    have hsingle : Regions unit limit start' len' [p] (InRegion start' len' p) := by grind [regions_singleton]
    grind [InRegion, hsingle.add]
  have hresult := (h.perm hperm).replace hnew (fun x ↦ ?_) fun r hr ↦ ?_
  · exact hresult.perm ((hperm.cons q).symm)
  · simp only [InRegion, mem_cons, not_mem_nil, or_false, exists_eq_left]
    omega
  · obtain ⟨hrp, hr⟩ := h.nodup.mem_erase_iff.mp hr
    exact hagree r hr hrp

theorem Regions.rename (hagree : ∀ r ∈ ps, r ≠ p → start' r = start r ∧ len' r = len r)
    (hstart : start' q = start p) (hlen : len' q = len p) :
    Regions unit limit start' len' (q :: ps.erase p) covered := by
  have hperm : ps.Perm ([p] ++ ps.erase p) := perm_cons_erase hp
  have hnew : Regions unit limit start' len' [q] (InRegion start' len' q) :=
    regions_singleton (hstart ▸ h.start_unit p hp) (hlen ▸ h.len_unit p hp) (hlen ▸ h.pos p hp)
      (by rw [hstart, hlen]; exact h.bound p hp)
  refine (h.perm hperm).replace hnew (fun x ↦ ?_) fun r hr ↦ ?_
  · simp [InRegion, hstart, hlen]
  · obtain ⟨hrp, hr⟩ := h.nodup.mem_erase_iff.mp hr
    exact hagree r hr hrp

end

end Local

theorem Regions.start_ne (h : Regions unit limit start len ps covered) (hp : p ∈ ps) (hq : q ∈ ps)
    (hne : p ≠ q) : start p ≠ start q := by
  have hapart := h.apart.forall hp hq hne
  have hposp := h.pos p hp
  have hposq := h.pos q hq
  unfold Apart at hapart
  omega

theorem Regions.before (h : Regions unit limit start len ps covered) (hp : p ∈ ps) (hq : q ∈ ps)
    (hlt : start p < start q) : start p + len p ≤ start q := by
  have hne : p ≠ q := by
    rintro rfl
    exact Nat.lt_irrefl _ hlt
  have hapart := h.apart.forall hp hq hne
  unfold Apart at hapart
  omega

end Lanthorn.Library
