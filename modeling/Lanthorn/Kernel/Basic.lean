import Mathlib.Data.List.Perm.Subperm
import Mathlib.Tactic.Common

/-!
# Results, error codes and machine words

The kernel runs on 32-bit x86: `addr_t`, `size_t`, `uint` and every pointer are 32-bit words, and `PAGE_SIZE` is
4096. Words are natural numbers here, with the remainder by `2 ^ 32` written where the code can wrap.

A call of the kernel either returns or does not. When it returns it gives one of the codes of `error.h` (`Errno`).
When it does not, one of the things of `Fault` has happened: an `assert` failed, a `panic` was reached, a null
pointer was followed, a pointer that no call has set was used, or a loop along pointers has gone on for more steps
than there are addresses.
-/

namespace Lanthorn

/-- The ways in which a call of the kernel does not return. -/
inductive Fault
  | assertion
  | panic
  | null
  | unset
  | endless
  deriving DecidableEq, Repr

/-- The outcome of a call: what it returns, or why it does not. -/
abbrev Result := Except Fault

/-- The error codes of `error.h`. -/
inductive Errno
  | ok
  | nomem
  | fault
  | noslot
  | nocache
  | inval
  | again
  | notfound
  | exist
  | faile
  | nomsg
  | block
  | toolong
  | toobig
  deriving DecidableEq, Repr

/-- `assert` of `log.h`. -/
def assert (condition : Prop) [Decidable condition] : Result Unit :=
  if condition then .ok () else .error .assertion

@[simp] theorem assert_of_true {condition : Prop} [Decidable condition] (h : condition) :
    assert condition = .ok () := if_pos h

theorem assert_eq_ok {condition : Prop} [Decidable condition] {u : Unit} :
    assert condition = .ok u ↔ condition := by
  unfold assert
  split_ifs with h <;> simp [h]

@[simp] theorem pure_eq {α : Type} (a : α) : (pure a : Result α) = .ok a := rfl

@[simp] theorem ok_bind {α β : Type} (a : α) (f : α → Result β) : (Except.ok a >>= f) = f a := rfl

@[simp] theorem error_bind {α β : Type} (e : Fault) (f : α → Result β) :
    ((.error e : Result α) >>= f) = .error e := rfl

theorem bind_eq_ok {α β : Type} {x : Result α} {f : α → Result β} {b : β} :
    x >>= f = .ok b ↔ ∃ a, x = .ok a ∧ f a = .ok b := by
  cases x with
  | error e => simp [bind, Except.bind]
  | ok a => simp [bind, Except.bind]

theorem map_eq_ok {α β : Type} {x : Result α} {f : α → β} {b : β} : x.map f = .ok b ↔ ∃ a, x = .ok a ∧ f a = b := by
  cases x with
  | error e => simp [Except.map]
  | ok a => simp [Except.map]

theorem ok_pair_inj {α β : Type} {a a' : α} {b b' : β} (h : (.ok (a, b) : Result (α × β)) = .ok (a', b')) :
    a = a' ∧ b = b' := Prod.mk.inj (Except.ok.inj h)

theorem ok_triple_inj {α β γ : Type} {a a' : α} {b b' : β} {c c' : γ}
    (h : (.ok (a, b, c) : Result (α × β × γ)) = .ok (a', b', c')) : a = a' ∧ b = b' ∧ c = c' :=
  ⟨(ok_pair_inj h).1, Prod.mk.inj (ok_pair_inj h).2⟩

/-- The number of addresses, `2 ^ 32`. -/
def addressSpace : ℕ := 4294967296

/-- `PAGE_SIZE` of `arch/basic.h`. -/
def pageSize : ℕ := 4096

/-- `KERN_BASE` of `arch/basic.h`. -/
def kernBase : ℕ := 0xC0000000

def wordAdd (a b : ℕ) : ℕ := (a + b) % addressSpace

/-- `ROUND_UP` of `util.h` on words. -/
def roundUp (x y : ℕ) : ℕ := (x + y - 1) % addressSpace / y * y

/-- `ROUND_DOWN` of `util.h` on words. -/
def roundDown (x y : ℕ) : ℕ := x / y * y

/-- The value of an `int`: a signed word. -/
def signed (x : Int) : Int := Int.bmod x 4294967296

/-- `container_of` of `util.h`: the address of the structure that holds a member at an offset. -/
def containerOf (ptr offset : ℕ) : ℕ := (ptr + addressSpace - offset) % addressSpace

theorem wordAdd_of_lt {a b : ℕ} (h : a + b < addressSpace) : wordAdd a b = a + b :=
  Nat.mod_eq_of_lt h

theorem signed_of_bound {x : Int} (hlow : -2147483648 ≤ x) (hhigh : x < 2147483648) : signed x = x :=
  Int.bmod_eq_of_le (by simpa using hlow) (by simpa using hhigh)

theorem containerOf_add {a offset : ℕ} (h : a + offset < addressSpace) : containerOf (a + offset) offset = a := by
  grind [containerOf, addressSpace]

/-! The examples count their processes, threads and mailboxes with the numerals of small types. -/

instance neZeroTwo : @NeZero ℕ Zero.ofOfNat0 2 := ⟨by decide⟩

instance neZeroThree : @NeZero ℕ Zero.ofOfNat0 3 := ⟨by decide⟩

instance neZeroFour : @NeZero ℕ Zero.ofOfNat0 4 := ⟨by decide⟩

theorem exists_succ {a n : ℕ} (h : a < n) : ∃ k, n = k + 1 := ⟨n - 1, by omega⟩

theorem length_le_of_nodup {xs : List ℕ} {bound : ℕ} (hnodup : xs.Nodup)
    (hlt : ∀ x ∈ xs, x < bound) : xs.length ≤ bound := by
  have hsub : xs ⊆ List.range bound := fun x hx ↦ List.mem_range.mpr (hlt x hx)
  simpa using (hnodup.subperm hsub).length_le

end Lanthorn
