import Mathlib

/-!
# Bytes in memory

A memory gives a byte for each address. `write` puts a list of bytes at an address and `read` takes bytes
from one; words of 32 bits are stored with the low byte first. A read sees the write at its own address
(`read_write_self`) and nothing of a write that is apart from it (`read_write_of_apart`).
-/

namespace Lanthorn.Library.Bytes

open List

/-- The memory with the bytes `data` at `addr`. -/
def write (mem : ℕ → UInt8) (addr : ℕ) (data : List UInt8) (a : ℕ) : UInt8 :=
  if addr ≤ a then data.getD (a - addr) (mem a) else mem a

/-- The `len` bytes at `addr`. -/
def read (mem : ℕ → UInt8) (addr len : ℕ) : List UInt8 :=
  (List.range len).map fun i ↦ mem (addr + i)

/-- The value of bytes, the low byte first. -/
def value : List UInt8 → ℕ
  | [] => 0
  | byte :: bytes => byte.toNat + 256 * value bytes

def word (n : ℕ) : List UInt8 :=
  [UInt8.ofNat n, UInt8.ofNat (n / 256), UInt8.ofNat (n / 65536), UInt8.ofNat (n / 16777216)]

def readWord (mem : ℕ → UInt8) (addr : ℕ) : ℕ := value (read mem addr 4)

/-- The word at an offset of a string of bytes. -/
def wordAt (bytes : List UInt8) (offset : ℕ) : ℕ := value ((bytes.drop offset).take 4)

variable {mem : ℕ → UInt8} {addr addr' len len' n : ℕ} {data : List UInt8}

@[simp] theorem length_read : (read mem addr len).length = len := by simp [read]

@[simp] theorem length_word : (word n).length = 4 := rfl

@[simp] theorem read_zero : read mem addr 0 = [] := rfl

theorem read_add : read mem addr (len + len') = read mem addr len ++ read mem (addr + len) len' := by
  simp [read, range_add, Nat.add_assoc]

theorem read_write_self : read (write mem addr data) addr data.length = data := by
  refine ext_getElem (by simp) fun i hi hi' ↦ ?_
  simp [read, write, hi']

theorem read_write_of_apart (h : addr + len ≤ addr' ∨ addr' + data.length ≤ addr) :
    read (write mem addr' data) addr len = read mem addr len := by
  refine map_congr_left fun i hi ↦ ?_
  grind [write]

theorem take_drop_read {offset : ℕ} (h : offset + n ≤ len) :
    ((read mem addr len).drop offset).take n = read mem (addr + offset) n := by
  obtain ⟨rest, rfl⟩ := Nat.exists_eq_add_of_le h
  rw [read_add, read_add, append_assoc, drop_left' length_read, take_left' length_read]

theorem wordAt_read {offset : ℕ} (h : offset + 4 ≤ len) :
    wordAt (read mem addr len) offset = readWord mem (addr + offset) := by rw [wordAt, take_drop_read h, readWord]

theorem value_word (h : n < 2 ^ 32) : value (word n) = n := by
  simp only [word, value, UInt8.toNat_ofNat']
  omega

theorem readWord_write_self (h : n < 2 ^ 32) : readWord (write mem addr (word n)) addr = n := by
  rw [readWord, show 4 = (word n).length from rfl, read_write_self, value_word h]

theorem readWord_write_of_apart (h : addr + 4 ≤ addr' ∨ addr' + data.length ≤ addr) :
    readWord (write mem addr' data) addr = readWord mem addr := by rw [readWord, read_write_of_apart h, readWord]

theorem read_write_part {offset : ℕ} (h : offset + n ≤ data.length) :
    read (write mem addr data) (addr + offset) n = (data.drop offset).take n := by
  rw [← take_drop_read h, read_write_self]

theorem take_drop_words {ns : List ℕ} {i : ℕ} (hi : ns[i]? = some n) :
    ((ns.flatMap word).drop (4 * i)).take 4 = word n := by
  induction ns generalizing i with
  | nil => simp at hi
  | cons first rest ih =>
    rw [flatMap_cons]
    cases i with
    | zero =>
      cases hi
      rw [Nat.mul_zero, drop_zero, take_left' length_word]
    | succ i =>
      rw [show 4 * (i + 1) = (word first).length + 4 * i by rw [length_word]; omega, drop_append,
        drop_of_length_le (by omega), nil_append, Nat.add_sub_cancel_left]
      exact ih (by simpa using hi)

theorem length_words {ns : List ℕ} : (ns.flatMap word).length = 4 * ns.length := by
  induction ns with
  | nil => rfl
  | cons first rest ih =>
    rw [flatMap_cons, length_append, ih, length_word, length_cons]
    omega

theorem readWord_write_words {ns : List ℕ} {i : ℕ} (hi : ns[i]? = some n) (hn : n < 2 ^ 32) :
    readWord (write mem addr (ns.flatMap word)) (addr + 4 * i) = n := by
  have hlt : i < ns.length := (List.getElem?_eq_some_iff.mp hi).1
  rw [readWord, read_write_part (by rw [length_words]; omega), take_drop_words hi, value_word hn]

end Lanthorn.Library.Bytes
