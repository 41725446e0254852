import Lanthorn.Kernel.RbtKeyed
import Mathlib.Data.List.Lex
import Mathlib.Order.Defs.LinearOrder

/-!
# C strings

`strlen`, `strcmp` and `strlen_s` of `lib/string.c`, which the library of the user programs repeats. A string is
the list of its characters before the terminator. `char` is signed on x86, so `strcmp` compares the characters as
numbers between -128 and 127.

`strcmp_eq` says that `strcmp` compares the strings in the lexicographic order of these numbers, a linear order.
Red-black trees whose keys are names are trees with these keys (`Rbt.Named`).

The library of the user programs keeps the lengths in `int`s (`usrStrcmp`), so it takes a string of `2 ^ 31`
characters or more for one of negative length and compares none of its characters. `usrStrcmp_eq_iff` says for which
strings it still returns what `strcmp` does. For strings of less than `2 ^ 31` characters it always does, and a
longer one it takes for less than the empty string (`usrStrcmp_long`).
-/

namespace Lanthorn

/-- The characters of a string before its terminator. -/
abbrev Str := List (BitVec 8)

/-- The terminator. -/
abbrev nul : BitVec 8 := 0#8

def Str.Terminated (s : Str) : Prop := ∀ c ∈ s, c ≠ nul

instance (s : Str) : Decidable s.Terminated := inferInstanceAs (Decidable (∀ c ∈ s, c ≠ nul))

/-- `strcmp`: the common characters in turn, then the lengths. -/
def strcmp : Str → Str → Ordering
  | c₁ :: s₁, c₂ :: s₂ =>
    if c₁.toInt < c₂.toInt then .lt
    else if c₁.toInt > c₂.toInt then .gt
    else strcmp s₁ s₂
  | s₁, s₂ =>
    if s₁.length < s₂.length then .lt
    else if s₁.length > s₂.length then .gt
    else .eq

/-- The loop of `strcmp` over the first `len` characters of both strings: the first difference. -/
def strcmpLoop : ℕ → Str → Str → Ordering
  | len + 1, c₁ :: s₁, c₂ :: s₂ =>
    if c₁.toInt < c₂.toInt then .lt
    else if c₁.toInt > c₂.toInt then .gt
    else strcmpLoop len s₁ s₂
  | _, _, _ => .eq

/-- `strcmp` of the user library, with lengths of type `int`. -/
def usrStrcmp (s₁ s₂ : Str) : Ordering :=
  let len₁ := (BitVec.ofNat 32 s₁.length).toInt
  let len₂ := (BitVec.ofNat 32 s₂.length).toInt
  let len := if len₁ < len₂ then len₁ else len₂
  match strcmpLoop len.toNat s₁ s₂ with
  | .eq => if len₁ < len₂ then .lt else if len₁ > len₂ then .gt else .eq
  | ord => ord

/-- The number that `strcmp` returns. -/
def strcmpValue : Ordering → ℤ
  | .lt => -1
  | .eq => 0
  | .gt => 1

/-- `strlen_s`: the length, cut off at `maxlen`. -/
def strlenS (s : Str) (maxlen : ℕ) : ℕ := min s.length maxlen

/-- A string as `strcmp` sees it. -/
def Str.key (s : Str) : List ℤ := s.map BitVec.toInt

theorem Str.key_injective : Function.Injective Str.key :=
  List.map_injective_iff.mpr fun _ _ h ↦ BitVec.eq_of_toInt_eq h

theorem strcmp_eq {dec : DecidableLT (List ℤ)} (s₁ s₂ : Str) :
    strcmp s₁ s₂ = @Rbt.compareKeys _ _ dec s₁.key s₂.key := by
  induction s₁ generalizing s₂ with
  | nil =>
    cases s₂ with
    | nil => simp [strcmp, Str.key, Rbt.compareKeys]
    | cons c₂ s₂ => simp [strcmp, Str.key, Rbt.compareKeys]
  | cons c₁ s₁ ih =>
    cases s₂ with
    | nil => simp [strcmp, Str.key, Rbt.compareKeys]
    | cons c₂ s₂ =>
      have hrest := ih s₂
      simp only [Str.key, Rbt.compareKeys] at hrest
      simp only [strcmp, Str.key, Rbt.compareKeys, List.map_cons, List.cons_lt_cons_iff, hrest]
      grind

/-- With the decision of the linear order. -/
theorem strcmp_eq_compareKeys (s₁ s₂ : Str) :
    strcmp s₁ s₂ = @Rbt.compareKeys (List ℤ) _ LinearOrder.toDecidableLT s₁.key s₂.key := strcmp_eq s₁ s₂

theorem strcmp_eq_eq {s₁ s₂ : Str} : strcmp s₁ s₂ = .eq ↔ s₁ = s₂ := by
  rw [strcmp_eq_compareKeys, Rbt.compareKeys_eq_eq]
  exact Str.key_injective.eq_iff

theorem strcmp_eq_lt {s₁ s₂ : Str} : strcmp s₁ s₂ = .lt ↔ s₁.key < s₂.key := by
  rw [strcmp_eq_compareKeys, Rbt.compareKeys_eq_lt]

theorem strcmp_eq_gt {s₁ s₂ : Str} : strcmp s₁ s₂ = .gt ↔ s₂.key < s₁.key := by
  rw [strcmp_eq_compareKeys, Rbt.compareKeys_eq_gt]

theorem strcmp_eq_loop (s₁ s₂ : Str) : strcmp s₁ s₂ = match strcmpLoop (min s₁.length s₂.length) s₁ s₂ with
    | .eq => if s₁.length < s₂.length then .lt else if s₁.length > s₂.length then .gt else .eq
    | ord => ord := by
  induction s₁ generalizing s₂ with
  | nil => cases s₂ <;> simp [strcmp, strcmpLoop]
  | cons c₁ s₁ ih =>
    cases s₂ with
    | nil => simp [strcmp, strcmpLoop]
    | cons c₂ s₂ =>
      simp only [strcmp, List.length_cons, Nat.add_min_add_right, strcmpLoop, ih s₂,
        Nat.add_lt_add_iff_right, gt_iff_lt]
      split_ifs <;> rfl

/-! ### Lengths of type `int` -/

/-- The strings that the user library compares as the kernel does: two of less than `2 ^ 31` characters; one of them
and a longer one that is less; or two longer ones that are ordered as their lengths are. -/
def Str.Sized (s t : Str) : Prop :=
  if s.length < 2147483648 then t.length < 2147483648 ∨ t.key < s.key
  else if t.length < 2147483648 then s.key < t.key
  else (s.key < t.key ↔ s.length < t.length) ∧ (t.key < s.key ↔ t.length < s.length)

theorem toInt_length {n : ℕ} (hn : n < 4294967296) :
    (BitVec.ofNat 32 n).toInt = if n < 2147483648 then (n : ℤ) else n - 4294967296 := by
  rw [BitVec.toInt_ofNat']
  split_ifs with hsmall
  · exact Int.bmod_eq_of_le (by omega) (by omega)
  · rw [← Int.sub_bmod_right]
    exact Int.bmod_eq_of_le (by omega) (by omega)

theorem strcmpLoop_zero (s t : Str) : strcmpLoop 0 s t = .eq := by cases s <;> cases t <;> rfl

section Lengths

variable {s t : Str}

theorem usrStrcmp_eq (hs : s.length < 2147483648) (ht : t.length < 2147483648) : usrStrcmp s t = strcmp s t := by
  have hmin : ((if (s.length : ℤ) < t.length then (s.length : ℤ) else t.length)).toNat =
      min s.length t.length := by split_ifs <;> omega
  simp only [usrStrcmp, toInt_length (hs.trans (by decide)), toInt_length (ht.trans (by decide)), if_pos hs,
    if_pos ht]
  rw [hmin, strcmp_eq_loop]
  simp only [Nat.cast_lt, gt_iff_lt]

/-- With a string of `2 ^ 31` characters or more only the lengths count, the long ones as negative numbers. -/
theorem usrStrcmp_of_long (hs : s.length < 4294967296) (ht : t.length < 4294967296)
    (hlong : ¬ (s.length < 2147483648 ∧ t.length < 2147483648)) : usrStrcmp s t =
      if s.length < 2147483648 then .gt else if t.length < 2147483648 then .lt
      else if s.length < t.length then .lt else if t.length < s.length then .gt else .eq := by
  have hloop : ∀ len : ℤ, len ≤ 0 → strcmpLoop len.toNat s t = .eq := fun len hlen ↦ by
    rw [Int.toNat_of_nonpos hlen, strcmpLoop_zero]
  simp only [usrStrcmp, toInt_length hs, toInt_length ht]
  rw [hloop _ (by split_ifs <;> omega)]
  split_ifs <;> first | rfl | omega

/-- The strings on which the two functions agree. -/
theorem usrStrcmp_eq_iff (hs : s.length < 4294967296) (ht : t.length < 4294967296) :
    usrStrcmp s t = strcmp s t ↔ s.Sized t := by
  by_cases hshort : s.length < 2147483648 ∧ t.length < 2147483648
  · simp [Str.Sized, usrStrcmp_eq hshort.1 hshort.2, hshort]
  rw [usrStrcmp_of_long hs ht hshort, Str.Sized]
  split_ifs with h₁ h₂ hlt hgt
  · rw [eq_comm, strcmp_eq_gt, or_iff_right fun h₂ ↦ hshort ⟨h₁, h₂⟩]
  · rw [eq_comm, strcmp_eq_lt]
  · rw [eq_comm, strcmp_eq_lt]
    simp only [hlt, hlt.asymm, iff_true, iff_false]
    exact ⟨fun h ↦ ⟨h, h.asymm⟩, And.left⟩
  · rw [eq_comm, strcmp_eq_gt]
    simp only [hlt, hgt, iff_true, iff_false]
    exact ⟨fun h ↦ ⟨h.asymm, h⟩, And.right⟩
  · rw [eq_comm, strcmp_eq_eq]
    simp only [hlt, hgt, iff_false]
    exact ⟨fun h ↦ h ▸ ⟨lt_irrefl _, lt_irrefl _⟩,
      fun h ↦ Str.key_injective (le_antisymm (not_lt.mp h.2) (not_lt.mp h.1))⟩

end Lengths

example : strcmp [0x61#8] [0x61#8, 0x2f#8] = .lt ∧ strcmp [0xe9#8] [0x61#8] = .lt := by decide

/-! ### Trees with names as keys -/

namespace Rbt

/-- A red-black tree whose nodes have strictly ascending names. -/
abbrev Named (name : ℕ → Str) (t : Rbt) (xs : List ℕ) : Prop := Keyed (fun n ↦ (name n).key) t xs

namespace Named

variable {name : ℕ → Str} {t : Rbt} {xs : List ℕ} {x : ℕ} {s : Str}

theorem search (h : Named name t xs) (hx : x ∈ xs) (hname : name x = s) :
    t.search (fun n ↦ strcmp s (name n)) = .ok x := by
  subst hname
  exact (congrArg t.search (funext fun _ ↦ strcmp_eq _ _)).trans (Keyed.search h hx)

theorem search_none (h : Named name t xs) (hnone : ∀ x ∈ xs, name x ≠ s) :
    t.search (fun n ↦ strcmp s (name n)) = .ok 0 :=
  (congrArg t.search (funext fun _ ↦ strcmp_eq _ _)).trans
    (Keyed.search_none h fun x hx heq ↦ hnone x hx (Str.key_injective heq))

theorem insertBy (h : Named name t xs) (hx : x ≠ 0) (hword : x < addressSpace) (hfresh : x ∉ xs)
    (hname : name x = s) (hnone : ∀ y ∈ xs, name y ≠ s) :
    ∃ t' ys zs, t.insertBy (fun n ↦ strcmp s (name n)) x = .ok (some t') ∧ xs = ys ++ zs ∧
      Named name t' (ys ++ x :: zs) ∧ Frames t t' (x :: xs) := by
  subst hname
  obtain ⟨t', ys, zs, hrun, hrest⟩ := Keyed.insertBy h hx hword hfresh
    fun y hy heq ↦ hnone y hy (Str.key_injective heq)
  exact ⟨t', ys, zs, (congrArg (t.insertBy · x) (funext fun _ ↦ strcmp_eq _ _)).trans hrun, hrest⟩

theorem insertBy_exist (h : Named name t xs) (hx : x ∈ xs) (hname : name x = s) (node : ℕ) :
    t.insertBy (fun n ↦ strcmp s (name n)) node = .ok none := by
  subst hname
  exact (congrArg (t.insertBy · node) (funext fun _ ↦ strcmp_eq _ _)).trans (Keyed.insertBy_exist h hx node)

end Named

/-- Nodes inserted one after the other, compared by their names. A node whose name is there already is
left out. -/
def insertNames (cmp : Str → Str → Ordering) (name : ℕ → Str) (t : Rbt) (nodes : List ℕ) : Result Rbt :=
  nodes.foldlM (fun t n ↦ return (← t.insertBy (fun m ↦ cmp (name n) (name m)) n).getD t) t

theorem Named.insertNames {name : ℕ → Str} {t : Rbt} {xs nodes : List ℕ} (h : Named name t xs)
    (hnodes : ∀ n ∈ nodes, n ≠ 0 ∧ n < addressSpace ∧ n ∉ xs) (hnodup : nodes.Nodup) :
    ∃ t' xs', insertNames strcmp name t nodes = .ok t' ∧ Named name t' xs' ∧
      (∀ x ∈ xs', x ∈ xs ++ nodes) ∧ ∀ x ∈ xs ++ nodes, ∃ y ∈ xs', name y = name x := by
  induction nodes generalizing t xs with
  | nil => exact ⟨t, xs, rfl, h, by simp, by grind⟩
  | cons n nodes ih =>
    obtain ⟨hn, hword, hfresh⟩ := hnodes n List.mem_cons_self
    obtain ⟨hnew, hnodup⟩ := List.nodup_cons.mp hnodup
    by_cases hold : ∃ x ∈ xs, name x = name n
    · obtain ⟨x, hx, hname⟩ := hold
      obtain ⟨t', xs', hrun, h', hsub, hnames⟩ := ih h (by grind) hnodup
      refine ⟨t', xs', ?_, h', by grind, by grind⟩
      simpa [Rbt.insertNames, Named.insertBy_exist h hx hname] using hrun
    · obtain ⟨t₁, ys, zs, hrun₁, rfl, h₁, -⟩ := Named.insertBy h hn hword hfresh rfl (by grind)
      obtain ⟨t', xs', hrun, h', hsub, hnames⟩ := ih h₁ (by grind) hnodup
      refine ⟨t', xs', ?_, h', by grind, by grind⟩
      simpa [Rbt.insertNames, hrun₁] using hrun

end Rbt

/-! ### The order of strings -/

/-- What a comparison of the strings `names` is for: it agrees with `strcmp` of the kernel, returns -1, 0 or 1, and
returns 0 only for equal strings, the opposite when the arguments are swapped, and -1 along the lexicographic order,
which is transitive. After inserting names into an empty tree, a search finds a node with the name sought if and
only if the name was inserted. -/
structure Lawful (cmp : Str → Str → Ordering) (names : Set Str) : Prop where
  agrees : ∀ s ∈ names, ∀ t ∈ names, cmp s t = strcmp s t
  value : ∀ s ∈ names, ∀ t ∈ names, strcmpValue (cmp s t) ∈ [-1, 0, 1]
  zero : ∀ s ∈ names, ∀ t ∈ names, (strcmpValue (cmp s t) = 0 ↔ s = t)
  swap : ∀ s ∈ names, ∀ t ∈ names, strcmpValue (cmp s t) = -strcmpValue (cmp t s)
  less : ∀ s ∈ names, ∀ t ∈ names, (strcmpValue (cmp s t) = -1 ↔ s.key < t.key)
  trans : ∀ s ∈ names, ∀ t ∈ names, ∀ u ∈ names,
    strcmpValue (cmp s t) = -1 → strcmpValue (cmp t u) = -1 → strcmpValue (cmp s u) = -1
  found : ∀ (m : Library.TreeMem) (name : ℕ → Str) (nodes : List ℕ), ∀ s ∈ names, (∀ n, name n ∈ names) →
    nodes.Nodup → (∀ n ∈ nodes, n ≠ 0 ∧ n < addressSpace) →
    ∃ tree, Rbt.insertNames cmp name ⟨m, 0⟩ nodes = .ok tree ∧
      ((∃ n ∈ nodes, name n = s) → ∃ n ∈ nodes, name n = s ∧ tree.search (fun n ↦ cmp s (name n)) = .ok n) ∧
      ((∀ n ∈ nodes, name n ≠ s) → tree.search (fun n ↦ cmp s (name n)) = .ok 0)

theorem strcmpValue_eq_neg_one {s t : Str} : strcmpValue (strcmp s t) = -1 ↔ s.key < t.key := by
  rw [← strcmp_eq_lt]
  cases strcmp s t <;> simp [strcmpValue]

/-- Exactly one of the three holds, and swapping exchanges two of them. -/
theorem strcmpValue_swap (s t : Str) : strcmpValue (strcmp s t) = -strcmpValue (strcmp t s) := by
  rcases lt_trichotomy s.key t.key with hless | heq | hgreater
  · rw [strcmp_eq_lt.mpr hless, strcmp_eq_gt.mpr hless]
    rfl
  · rw [Str.key_injective heq, strcmp_eq_eq.mpr rfl]
    rfl
  · rw [strcmp_eq_gt.mpr hgreater, strcmp_eq_lt.mpr hgreater]
    rfl

/-- All the rest follows from agreeing with `strcmp` of the kernel. -/
theorem lawful_of_agrees {cmp : Str → Str → Ordering} {names : Set Str}
    (h : ∀ s ∈ names, ∀ t ∈ names, cmp s t = strcmp s t) : Lawful cmp names where
  agrees := h
  value s hs t ht := by
    rw [h s hs t ht]
    cases strcmp s t <;> simp [strcmpValue]
  zero s hs t ht := by
    rw [h s hs t ht, ← strcmp_eq_eq]
    cases strcmp s t <;> simp [strcmpValue]
  swap s hs t ht := by rw [h s hs t ht, h t ht s hs, strcmpValue_swap]
  less s hs t ht := by rw [h s hs t ht, strcmpValue_eq_neg_one]
  trans s hs t ht u hu hst htu := by
    rw [h s hs t ht, strcmpValue_eq_neg_one] at hst
    rw [h t ht u hu, strcmpValue_eq_neg_one] at htu
    rw [h s hs u hu, strcmpValue_eq_neg_one]
    exact hst.trans htu
  found m name nodes s hs hname hnodup hnodes := by
    have hinsert : Rbt.insertNames cmp name ⟨m, 0⟩ nodes = Rbt.insertNames strcmp name ⟨m, 0⟩ nodes := by
      simp only [Rbt.insertNames, h _ (hname _) _ (hname _)]
    have hsearch : ∀ tree : Rbt, tree.search (fun n ↦ cmp s (name n)) =
        tree.search (fun n ↦ strcmp s (name n)) := fun tree ↦ by simp only [h s hs _ (hname _)]
    obtain ⟨tree, xs, hrun, hnamed, hsub, hnames⟩ :=
      Rbt.Named.insertNames (Rbt.Keyed.empty _ m) (by simpa using hnodes) hnodup
    refine ⟨tree, hinsert.trans hrun, fun hsome ↦ ?_, fun hnone ↦ ?_⟩
    · obtain ⟨n, hn, hns⟩ := hsome
      obtain ⟨x, hx, hxn⟩ := hnames n (by simpa using hn)
      have hfound := Rbt.Named.search hnamed hx (hxn.trans hns)
      exact ⟨x, by simpa using hsub x hx, hxn.trans hns, (hsearch tree).trans hfound⟩
    · rw [hsearch]
      exact Rbt.Named.search_none hnamed fun x hx ↦ hnone x (by simpa using hsub x hx)

/-- The kernel's `strcmp` is lawful for all strings, and that of the user library for the strings `names` if and
only if any two of them are `Sized`.

Assumes: the strings fit into the address space. -/
theorem strcmp_order {names : Set Str} (hnames : ∀ s ∈ names, s.length < 4294967296) :
    Lawful strcmp names ∧ (Lawful usrStrcmp names ↔ ∀ s ∈ names, ∀ t ∈ names, s.Sized t) :=
  ⟨lawful_of_agrees fun _ _ _ _ ↦ rfl,
    fun h s hs t ht ↦ (usrStrcmp_eq_iff (hnames s hs) (hnames t ht)).mp (h.agrees s hs t ht),
    fun h ↦ lawful_of_agrees fun s hs t ht ↦ (usrStrcmp_eq_iff (hnames s hs) (hnames t ht)).mpr (h s hs t ht)⟩

/-- A slash sorts before a letter, and a letter above 127 before both. -/
theorem strcmp_order_example : strcmpValue (usrStrcmp [0xe9#8] [0x2f#8]) = -1 ∧
    strcmpValue (usrStrcmp [0x2f#8] [0x61#8]) = -1 ∧ strcmpValue (usrStrcmp [0xe9#8] [0x61#8]) = -1 := by
  have hlawful : Lawful usrStrcmp {s | s.length < 2} :=
    (strcmp_order fun s hs ↦ hs.trans (by decide)).2.mpr fun s hs t ht ↦ by
      rw [Str.Sized, if_pos (lt_trans hs (by decide))]
      exact .inl (lt_trans ht (by decide))
  exact ⟨by decide, by decide,
    hlawful.trans [0xe9#8] (by simp) [0x2f#8] (by simp) [0x61#8] (by simp) (by decide) (by decide)⟩

theorem strcmp_nil_of_length {s : Str} (h : s.length = 2147483648) : usrStrcmp s [] = .lt ∧ strcmp s [] = .gt := by
  constructor
  · simp [usrStrcmp_of_long, h]
  · simp [strcmp_eq_loop, h, strcmpLoop_zero]

/-- The user library takes a string of `2 ^ 31` letters for less than the empty string, the kernel for
greater. -/
theorem usrStrcmp_long : ∃ s : Str, s.Terminated ∧ s.length = 2147483648 ∧
    usrStrcmp s [] = .lt ∧ strcmp s [] = .gt := by
  obtain ⟨s, hlength, hletters⟩ : ∃ s : Str, s.length = 2147483648 ∧ ∀ c ∈ s, c = 0x61#8 :=
    ⟨_, List.length_replicate, fun _ ↦ List.eq_of_mem_replicate⟩
  exact ⟨s, fun c hc ↦ hletters c hc ▸ by decide, hlength, strcmp_nil_of_length hlength⟩

end Lanthorn
