import Mathlib.Data.BitVec
import Mathlib.Data.List.Iterate
import Mathlib.Data.List.Nodup
import Mathlib.Data.Nat.ModEq
import Mathlib.Logic.Function.Iterate

/-!
# Counting in a circle

The successors of a number of fixed width, and of an index into a ring of `n` cells, come back to where they began
after `2 ^ w` and after `n` steps, and not before. So as long as a list is shorter than the circle, what is
numbered along it is numbered without repetition: `nodup_iterate_bitVec` and `nodup_iterate_mod`.
-/

namespace Lanthorn.Library

variable {α : Type*}

theorem iterate_succ_append (next : α → α) (a : α) (k : ℕ) :
    List.iterate next a (k + 1) = List.iterate next a k ++ [next^[k] a] :=
  List.iterate_add next a k 1

theorem nodup_iterate {next : α → α} {a : α} {k : ℕ}
    (hinj : ∀ i < k, ∀ j < k, next^[i] a = next^[j] a → i = j) : (List.iterate next a k).Nodup := by
  rw [← List.range_map_iterate]
  exact List.Nodup.map_on (fun i hi j hj heq ↦ hinj i (List.mem_range.mp hi) j (List.mem_range.mp hj) heq)
    List.nodup_range

/-! ### Numbers of fixed width -/

section FixedWidth

variable {w : ℕ}

theorem iterate_bitVec (a : BitVec w) (k : ℕ) : (· + 1)^[k] a = a + BitVec.ofNat w k := by
  induction k with
  | zero => simp
  | succ k ih =>
    rw [Function.iterate_succ_apply', ih, BitVec.add_assoc, BitVec.ofNat_add]
    rfl

theorem toNat_iterate_sub (a : BitVec w) {k : ℕ} (hk : k < 2 ^ w) : ((· + 1)^[k] a - a).toNat = k := by
  grind [iterate_bitVec]

theorem nodup_iterate_bitVec (a : BitVec w) {k : ℕ} (hk : k ≤ 2 ^ w) : (List.iterate (· + 1) a k).Nodup := by
  refine nodup_iterate fun i hi j hj heq ↦ ?_
  rw [← toNat_iterate_sub a (hi.trans_le hk), heq, toNat_iterate_sub a (hj.trans_le hk)]

theorem mem_iterate_bitVec {a b : BitVec w} {k : ℕ} (_ : k ≤ 2 ^ w) :
    b ∈ List.iterate (· + 1) a k ↔ (b - a).toNat < k := by grind [List.mem_iterate, iterate_bitVec]

end FixedWidth

/-! ### Indices into a ring -/

section Modular

variable {n : ℕ}

theorem iterate_mod {a : ℕ} (ha : a < n) (k : ℕ) : (fun i ↦ (i + 1) % n)^[k] a = (a + k) % n := by
  induction k with
  | zero => rw [Function.iterate_zero_apply, Nat.add_zero, Nat.mod_eq_of_lt ha]
  | succ k ih => rw [Function.iterate_succ_apply', ih, Nat.mod_add_mod, Nat.add_assoc]

theorem nodup_iterate_mod {a : ℕ} (ha : a < n) {k : ℕ} (hk : k ≤ n) :
    (List.iterate (fun i ↦ (i + 1) % n) a k).Nodup := by
  refine nodup_iterate fun i hi j hj heq ↦ ?_
  rw [iterate_mod ha, iterate_mod ha] at heq
  exact Nat.ModEq.eq_of_lt_of_lt (Nat.ModEq.add_left_cancel' a heq) (hi.trans_le hk) (hj.trans_le hk)

theorem iterate_mod_lt {a : ℕ} (ha : a < n) (k : ℕ) : (fun i ↦ (i + 1) % n)^[k] a < n := by
  rw [iterate_mod ha]
  exact Nat.mod_lt _ (Nat.zero_lt_of_lt ha)

end Modular

end Lanthorn.Library
