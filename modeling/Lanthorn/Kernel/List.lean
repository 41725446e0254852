import Lanthorn.Kernel.Basic
import Lanthorn.Library.Ring
import Lanthorn.Library.Run

/-!
# `lib/list.c`

The kernel's intrusive lists. A `list_node_t` is named by its address, and a memory of them is a `Links`: `p` and
`n` are the members of that name. Following a null pointer is `Fault.null`.

Each operation has one lemma on rings of non-null cells: it ends, the ring holds the expected list, and no cell
outside the ring and the given node is written. `Lists.run_refines` puts them together: a memory with any number of
lists, over any sequence of operations, against the sequences that the lists stand for.
-/

namespace Lanthorn

open Function Library List

/-- `list_init`. -/
def listInit (L : Links ℕ) (head : ℕ) : Links ℕ := (L.setN head head).setP head head

/-- `list_isempty`. -/
def listIsempty (L : Links ℕ) (head : ℕ) : Bool := L.n head = head

/-- `list_push_front`. -/
def listPushFront (L : Links ℕ) (head node : ℕ) : Result (Links ℕ) := do
  let L := (L.setN node (L.n head)).setP node head
  if L.n head = 0 then throw .null
  return (L.setP (L.n head) node).setN head node

/-- `list_push_back`. -/
def listPushBack (L : Links ℕ) (head node : ℕ) : Result (Links ℕ) := do
  let L := (L.setP node (L.p head)).setN node head
  if L.p head = 0 then throw .null
  return (L.setN (L.p head) node).setP head node

/-- `list_delete`. -/
def listDelete (L : Links ℕ) (node : ℕ) : Result (Links ℕ) := do
  if L.p node = 0 then throw .null
  let L := L.setN (L.p node) (L.n node)
  if L.n node = 0 then throw .null
  return L.setP (L.n node) (L.p node)

/-- `list_pop_front`. -/
def listPopFront (L : Links ℕ) (head : ℕ) : Result (ℕ × Links ℕ) := do
  let front := L.n head
  if front = 0 then throw .null
  let L := L.setN head (L.n front)
  if L.n front = 0 then throw .null
  return (front, L.setP (L.n front) head)

/-- `list_pop_back`. -/
def listPopBack (L : Links ℕ) (head : ℕ) : Result (ℕ × Links ℕ) := do
  let back := L.p head
  if back = 0 then throw .null
  let L := L.setP head (L.p back)
  if L.p back = 0 then throw .null
  return (back, L.setN (L.p back) head)

/-- The loop `list_rep_s` of `list.h` from the node `p` on, with `pp` the next one, whose body deletes the
nodes of `del`. It returns the nodes visited. -/
def listRepS (del : ℕ → Bool) (head : ℕ) : ℕ → ℕ → ℕ → Links ℕ → List ℕ → Result (List ℕ × Links ℕ)
  | 0, _, _, _, _ => throw .endless
  | fuel + 1, p, pp, L, seen =>
    if p = head then return (seen, L)
    else do
      let L ← if del p then listDelete L p else pure L
      if pp = 0 then throw .null
      listRepS del head fuel pp (L.n pp) L (seen ++ [p])

/-! ### The operations on rings -/

section Rings

variable {L : Links ℕ} {head node : ℕ} {xs ys : List ℕ}

theorem listIsempty_iff (hring : IsRing L head xs) : listIsempty L head = true ↔ xs = [] := by
  simp [listIsempty, hring.n_head_eq_iff]

theorem listPushBack_ring (hring : IsRing L head xs) (hzero : 0 ∉ head :: xs) (hnode : node ∉ head :: xs) :
    ∃ L', listPushBack L head node = .ok L' ∧ IsRing L' head (xs ++ [node]) ∧
      ∀ y, y ∉ node :: head :: xs → L.AgreeAt L' y := by
  have hprev := (hring.neighbours_mem mem_cons_self).1
  have hne : head ≠ node := fun h ↦ hnode (by simp [h])
  have hprev0 : L.p head ≠ 0 := fun h ↦ hzero (h ▸ hprev)
  refine ⟨L.link node (L.p head) head, ?_, hring.link_back hnode, fun y hy ↦ ?_⟩
  · simp [listPushBack, hne, hprev0, Links.link]
  · exact link_eq_of_ne L (by grind) (by grind) (by grind)

theorem listPushFront_ring (hring : IsRing L head xs) (hzero : 0 ∉ head :: xs) (hnode : node ∉ head :: xs) :
    ∃ L', listPushFront L head node = .ok L' ∧ IsRing L' head (node :: xs) ∧
      ∀ y, y ∉ node :: head :: xs → L.AgreeAt L' y := by
  have hnext := (hring.neighbours_mem mem_cons_self).2
  have hne : head ≠ node := fun h ↦ hnode (by simp [h])
  have hnext0 : L.n head ≠ 0 := fun h ↦ hzero (h ▸ hnext)
  refine ⟨L.link node head (L.n head), ?_, hring.link_front hnode, fun y hy ↦ ?_⟩
  · simp [listPushFront, hne, hnext0, Links.link]
    rfl
  · exact link_eq_of_ne L (by grind) (by grind) (by grind)

theorem listDelete_ring (hring : IsRing L head (xs ++ node :: ys)) (hzero : 0 ∉ head :: (xs ++ node :: ys)) :
    ∃ L', listDelete L node = .ok L' ∧ IsRing L' head (xs ++ ys) ∧
      ∀ y, y ∉ head :: (xs ++ node :: ys) → L.AgreeAt L' y := by
  obtain ⟨hprev, hnext⟩ := hring.neighbours_mem (x := node) (by simp)
  have hprev0 : L.p node ≠ 0 := fun h ↦ hzero (h ▸ hprev)
  have hnext0 : L.n node ≠ 0 := fun h ↦ hzero (h ▸ hnext)
  have hself : L.p node ≠ node := by
    have hback := (((segment_append_cons L head node xs ys head).mp hring.segment).1.prev_mem
      (x := node) (by simp)).1
    have hnodup := hring.nodup
    grind
  refine ⟨L.unlink node, ?_, hring.unlink, fun y hy ↦ ?_⟩
  · simp [listDelete, hprev0, hnext0, Links.unlink, hself.symm]
  · exact unlink_eq_of_ne L (fun h ↦ hy (h ▸ hprev)) (fun h ↦ hy (h ▸ hnext))

theorem listPopFront_ring (hring : IsRing L head (node :: xs)) (hzero : 0 ∉ head :: node :: xs) :
    ∃ L', listPopFront L head = .ok (node, L') ∧ IsRing L' head xs ∧
      ∀ y, y ∉ head :: node :: xs → L.AgreeAt L' y := by
  obtain ⟨hfirst, hback, -⟩ := id hring.segment
  obtain ⟨-, hnext⟩ := hring.neighbours_mem (x := node) (by simp)
  have hnode0 : node ≠ 0 := fun h ↦ hzero (by simp [h])
  have hnext0 : L.n node ≠ 0 := fun h ↦ hzero (h ▸ hnext)
  have hne : node ≠ head := fun h ↦ (List.nodup_cons.mp hring.nodup).1 (by simp [h])
  refine ⟨L.unlink node, ?_, (show IsRing L head ([] ++ node :: xs) from hring).unlink, fun y hy ↦ ?_⟩
  · simp [listPopFront, hfirst, hnode0, hne, hnext0, Links.unlink, hback]
  · exact unlink_eq_of_ne L (fun h ↦ hy (by simp [h, hback])) (fun h ↦ hy (h ▸ hnext))

theorem listPopBack_ring (hring : IsRing L head (xs ++ [node])) (hzero : 0 ∉ head :: (xs ++ [node])) :
    ∃ L', listPopBack L head = .ok (node, L') ∧ IsRing L' head xs ∧
      ∀ y, y ∉ head :: (xs ++ [node]) → L.AgreeAt L' y := by
  obtain ⟨-, hnext, hback⟩ := (segment_append_cons L head node xs [] head).mp hring.segment
  obtain ⟨hprev, -⟩ := hring.neighbours_mem (x := node) (by simp)
  have hnode0 : node ≠ 0 := fun h ↦ hzero (by simp [h])
  have hprev0 : L.p node ≠ 0 := fun h ↦ hzero (h ▸ hprev)
  have hne : node ≠ head := fun h ↦ (List.nodup_cons.mp hring.nodup).1 (by simp [h])
  refine ⟨L.unlink node, ?_, by simpa using hring.unlink, fun y hy ↦ ?_⟩
  · simp [listPopBack, hback, hnode0, hne, hprev0, Links.unlink, hnext]
    rfl
  · exact unlink_eq_of_ne L (fun h ↦ hy (h ▸ hprev)) (fun h ↦ hy (by simp [h, hnext]))

theorem listRepS_ring (del : ℕ → Bool) {kept zs : List ℕ} (hring : IsRing L head (kept ++ zs))
    (hzero : 0 ∉ head :: (kept ++ zs)) {fuel : ℕ} (hfuel : zs.length < fuel) (seen : List ℕ) :
    ∃ L', listRepS del head fuel (zs.headD head) (L.n (zs.headD head)) L seen = .ok (seen ++ zs, L') ∧
      IsRing L' head (kept ++ zs.filter fun z ↦ !del z) := by
  induction zs generalizing L kept fuel seen with
  | nil =>
    obtain ⟨fuel, rfl⟩ := exists_succ hfuel
    exact ⟨L, by simp [listRepS], by simpa using hring⟩
  | cons z zs ih =>
    obtain ⟨fuel, rfl⟩ := exists_succ hfuel
    have hnext : L.n z = zs.headD head := by
      have hrest := ((segment_append_cons L head z kept zs head).mp hring.segment).2
      cases zs <;> exact hrest.1
    have hz : z ≠ head := by grind [hring.nodup]
    have hnext0 : zs.headD head ≠ 0 := by cases zs <;> grind
    have hfuel' : zs.length < fuel := by simpa using hfuel
    simp only [listRepS, headD_cons, hnext, hz, hnext0, if_false]
    by_cases hdel : del z
    · obtain ⟨L₁, hrun, hring₁, -⟩ := listDelete_ring hring hzero
      obtain ⟨L', hloop, hring'⟩ := ih hring₁ (by grind) hfuel' (seen ++ [z])
      exact ⟨L', by simpa [hdel, hrun] using hloop, by simpa [hdel] using hring'⟩
    · have hsplit : IsRing L head ((kept ++ [z]) ++ zs) := by simpa using hring
      obtain ⟨L', hloop, hring'⟩ := ih hsplit (by simpa using hzero) hfuel' (seen ++ [z])
      exact ⟨L', by simpa [hdel] using hloop, by simpa [hdel] using hring'⟩

end Rings

/-! ### Any number of lists -/

inductive ListOp
  | init (head : ℕ)
  | pushFront (head node : ℕ)
  | pushBack (head node : ℕ)
  | popFront (head : ℕ)
  | popBack (head : ℕ)
  | delete (node : ℕ)

def ListOp.exec (L : Links ℕ) : ListOp → Result (Option ℕ × Links ℕ)
  | .init head => return (none, listInit L head)
  | .pushFront head node => do return (none, ← listPushFront L head node)
  | .pushBack head node => do return (none, ← listPushBack L head node)
  | .popFront head => do
    let (front, L) ← listPopFront L head
    return (some front, L)
  | .popBack head => do
    let (back, L) ← listPopBack L head
    return (some back, L)
  | .delete node => do return (none, ← listDelete L node)

/-- A memory of links and the sequences of the lists in it, by their heads. -/
structure Lists where
  links : Links ℕ
  seq : ℕ → Option (List ℕ)

namespace Lists

def apply (seq : ℕ → Option (List ℕ)) : ListOp → ℕ → Option (List ℕ)
  | .init head => update seq head (some [])
  | .pushFront head node => update seq head ((seq head).map (node :: ·))
  | .pushBack head node => update seq head ((seq head).map (· ++ [node]))
  | .popFront head => update seq head ((seq head).map List.tail)
  | .popBack head => update seq head ((seq head).map List.dropLast)
  | .delete node => fun head ↦ (seq head).map (·.erase node)

def result (seq : ℕ → Option (List ℕ)) : ListOp → Option ℕ
  | .popFront head => (seq head).bind List.head?
  | .popBack head => (seq head).bind List.getLast?
  | _ => none

def Free (s : Lists) (node : ℕ) : Prop :=
  node ≠ 0 ∧ node < addressSpace ∧ ∀ head xs, s.seq head = some xs → node ∉ head :: xs

/-- The conditions on the operations: a head is no element of a list, a node is pushed when it is in no
list, popped from a list that is not empty, and deleted when it is in a list. -/
def Allowed (s : Lists) : ListOp → Prop
  | .init head => head ≠ 0 ∧ head < addressSpace ∧ ∀ other xs, s.seq other = some xs → head ∉ xs
  | .pushFront head node | .pushBack head node => (∃ xs, s.seq head = some xs) ∧ s.Free node
  | .popFront head | .popBack head => ∃ xs, s.seq head = some xs ∧ xs ≠ []
  | .delete node => ∃ head xs, s.seq head = some xs ∧ node ∈ xs

def system : Library.System Lists ListOp where
  init s := s.seq = fun _ ↦ none
  step s op s' := ∃ result L', op.exec s.links = .ok (result, L') ∧ s' = ⟨L', apply s.seq op⟩

/-- Every list is a ring with the elements of its sequence, and no two lists have a common cell. -/
structure Inv (s : Lists) : Prop where
  ring : ∀ {head xs}, s.seq head = some xs → IsRing s.links head xs
  word : ∀ {head xs}, s.seq head = some xs → ∀ x ∈ head :: xs, x ≠ 0 ∧ x < addressSpace
  apart : ∀ {head xs other ys}, s.seq head = some xs → s.seq other = some ys → head ≠ other →
    ∀ x ∈ head :: xs, x ∉ other :: ys

variable {s : Lists}

theorem Inv.not_zero (h : s.Inv) {head : ℕ} {xs : List ℕ} (hseq : s.seq head = some xs) : 0 ∉ head :: xs :=
  fun hmem ↦ (h.word hseq 0 hmem).1 rfl

/-- What an operation did: it made the list of one head a ring with another sequence, and left the
cells of every other list alone. -/
structure Changed (s : Lists) (L' : Links ℕ) (head : ℕ) (ys : List ℕ) : Prop where
  ring : IsRing L' head ys
  word : ∀ x ∈ head :: ys, x ≠ 0 ∧ x < addressSpace
  others : ∀ other xs, other ≠ head → s.seq other = some xs →
    ∀ x ∈ other :: xs, x ∉ head :: ys ∧ s.links.AgreeAt L' x

theorem Inv.changed (h : s.Inv) {L' : Links ℕ} {head : ℕ} {ys : List ℕ} (hchange : s.Changed L' head ys) :
    Inv ⟨L', update s.seq head (some ys)⟩ := by
  obtain ⟨hring, hword, hothers⟩ := h
  obtain ⟨hring', hword', hchanged⟩ := hchange
  refine ⟨fun {other xs} hseq ↦ ?_, fun {other xs} hseq ↦ ?_, fun {a xs b zs} ha hb hab ↦ ?_⟩
  · by_cases heq : other = head
    · grind
    · have hseq : s.seq other = some xs := by simpa [heq] using hseq
      exact (hring hseq).congr fun x hx ↦ (hchanged other xs heq hseq x hx).2
  · grind
  · grind

theorem Inv.changed_of_agree (h : s.Inv) {L' : Links ℕ} {head : ℕ} {xs ys : List ℕ}
    (hseq : s.seq head = some xs) (hring : IsRing L' head ys)
    (hnew : ∀ x ∈ ys, x ∈ xs ∨ s.Free x) (cells : List ℕ) (hfree : ∀ x ∈ cells, x ∈ head :: xs ∨ s.Free x)
    (hagree : ∀ x, x ∉ cells → s.links.AgreeAt L' x) : s.Changed L' head ys := by
  have hword := h.word hseq
  refine ⟨hring, by grind [Free], fun other zs hne hother x hx ↦ ?_⟩
  have hapart := h.apart hother hseq hne x hx
  exact ⟨by grind [Free], hagree x (by grind [Free])⟩

theorem Inv.exec (h : s.Inv) {op : ListOp} (hallowed : s.Allowed op) :
    ∃ L' head ys, op.exec s.links = .ok (result s.seq op, L') ∧
      apply s.seq op = update s.seq head (some ys) ∧ s.Changed L' head ys := by
  cases op with
  | init head =>
    obtain ⟨hzero, hword, hnew⟩ := hallowed
    refine ⟨_, head, [], rfl, rfl, isRing_initHead _ _, by simp [hzero, hword], fun other xs hne hseq x hx ↦ ?_⟩
    have hx' : x ≠ head := by grind
    exact ⟨by simpa using hx', initHead_eq_of_ne _ hx'⟩
  | pushFront head node =>
    obtain ⟨⟨xs, hseq⟩, hfree⟩ := hallowed
    obtain ⟨L', hrun, hring, hagree⟩ :=
      listPushFront_ring (h.ring hseq) (h.not_zero hseq) (hfree.2.2 head xs hseq)
    refine ⟨L', head, node :: xs, ?_, by simp [apply, hseq], ?_⟩
    · simp [ListOp.exec, hrun, result]
    · exact h.changed_of_agree hseq hring (by grind) _ (by grind) hagree
  | pushBack head node =>
    obtain ⟨⟨xs, hseq⟩, hfree⟩ := hallowed
    obtain ⟨L', hrun, hring, hagree⟩ :=
      listPushBack_ring (h.ring hseq) (h.not_zero hseq) (hfree.2.2 head xs hseq)
    refine ⟨L', head, xs ++ [node], ?_, by simp [apply, hseq], ?_⟩
    · simp [ListOp.exec, hrun, result]
    · exact h.changed_of_agree hseq hring (by grind) _ (by grind) hagree
  | popFront head =>
    obtain ⟨xs, hseq, hne⟩ := hallowed
    obtain ⟨x, xs, rfl⟩ := exists_cons_of_ne_nil hne
    obtain ⟨L', hrun, hring, hagree⟩ := listPopFront_ring (h.ring hseq) (h.not_zero hseq)
    refine ⟨L', head, xs, ?_, by simp [apply, hseq], ?_⟩
    · simp [ListOp.exec, hrun, result, hseq]
    · exact h.changed_of_agree hseq hring (by grind) _ (by grind) hagree
  | popBack head =>
    obtain ⟨xs, hseq, hne⟩ := hallowed
    obtain ⟨xs, x, rfl⟩ := (eq_nil_or_concat' xs).resolve_left hne
    obtain ⟨L', hrun, hring, hagree⟩ := listPopBack_ring (h.ring hseq) (h.not_zero hseq)
    refine ⟨L', head, xs, ?_, by simp [apply, hseq], ?_⟩
    · simp [ListOp.exec, hrun, result, hseq]
    · exact h.changed_of_agree hseq hring (by grind) _ (by grind) hagree
  | delete node =>
    obtain ⟨head, xs, hseq, hmem⟩ := hallowed
    obtain ⟨ys, zs, rfl⟩ := append_of_mem hmem
    obtain ⟨L', hrun, hring, hagree⟩ := listDelete_ring (h.ring hseq) (h.not_zero hseq)
    have hfirst : node ∉ ys := by grind [(h.ring hseq).nodup]
    refine ⟨L', head, ys ++ zs, by simp [ListOp.exec, hrun, result], ?_, ?_⟩
    · -- the other lists do not have the node
      funext other
      by_cases heq : other = head
      · simp [apply, heq, hseq, erase_append_right _ hfirst]
      · rw [update_of_ne heq]
        cases hother : s.seq other with
        | none => simp [apply, hother]
        | some ws =>
          have hnot := h.apart hseq hother (Ne.symm heq) node (by simp)
          simp [apply, hother, erase_of_not_mem (fun hmem ↦ hnot (mem_cons_of_mem _ hmem))]
    · exact h.changed_of_agree hseq hring (by grind) _ (by grind) hagree

theorem inv_of_run (h : system.Run Allowed s) : s.Inv := by
  refine h.invariant (fun s hinit ↦ ?_) fun s op s' hinv hallowed hstep ↦ ?_
  · have hnone : ∀ head, s.seq head = none := fun head ↦ congrFun hinit head
    exact ⟨by simp [hnone], by simp [hnone], by simp [hnone]⟩
  · obtain ⟨result, L₁, hrun, rfl⟩ := hstep
    obtain ⟨L', head, ys, hrun', hseq, hchange⟩ := hinv.exec hallowed
    obtain ⟨-, rfl⟩ : _ ∧ L₁ = L' := by simpa [hrun] using hrun'
    rw [hseq]
    exact hinv.changed hchange

/-- After any sequence of allowed operations every list is a ring of the elements of its sequence, along
which `n` and `p` are mutually inverse. Every allowed operation returns, with the node that the
sequence says, and touches no cell of a list but one. The loop `list_rep_s` visits every element once,
whichever of them its body deletes. -/
theorem run_refines (h : system.Run Allowed s) : (∀ head xs, s.seq head = some xs → IsRing s.links head xs ∧
      ∀ x ∈ head :: xs, s.links.p (s.links.n x) = x ∧ s.links.n (s.links.p x) = x) ∧
    (∀ op, s.Allowed op → ∃ L' head, op.exec s.links = .ok (result s.seq op, L') ∧
      ∀ other xs, other ≠ head → s.seq other = some xs → apply s.seq op other = some xs ∧
        ∀ x ∈ other :: xs, s.links.AgreeAt L' x) ∧
    ∀ head xs del, s.seq head = some xs → ∃ L',
      listRepS del head addressSpace (s.links.n head) (s.links.n (s.links.n head)) s.links [] = .ok (xs, L') ∧
        IsRing L' head (xs.filter fun x ↦ !del x) := by
  have hinv := inv_of_run h
  refine ⟨fun head xs hseq ↦ ⟨hinv.ring hseq, (hinv.ring hseq).mutually_inverse⟩, fun op hallowed ↦ ?_,
    fun head xs del hseq ↦ ?_⟩
  · obtain ⟨L', head, ys, hrun, hseq, hchange⟩ := hinv.exec hallowed
    refine ⟨L', head, hrun, fun other xs hne hother ↦ ⟨?_, fun x hx ↦ (hchange.others other xs hne hother x hx).2⟩⟩
    rw [hseq, update_of_ne hne, hother]
  · have hlength := length_le_of_nodup (hinv.ring hseq).nodup fun x hx ↦ (hinv.word hseq x hx).2
    have hhead : s.links.n head = xs.headD head := by rw [(hinv.ring hseq).n_head, headD_eq_head?_getD]
    rw [hhead]
    have hring : IsRing s.links head ([] ++ xs) := hinv.ring hseq
    exact listRepS_ring del hring (hinv.not_zero hseq) hlength []

/-- A list at 4 with the node 8. -/
theorem run_refines_example : ∃ s, system.Run Allowed s ∧ s.seq 4 = some [8] ∧ s.links.n 4 = 8 := by
  have h₀ : system.Run Allowed ⟨⟨fun _ ↦ 0, fun _ ↦ 0⟩, fun _ ↦ none⟩ := .init rfl
  have h₁ := h₀.step (show Allowed _ (.init 4) from ⟨by decide, by decide, by simp⟩) ⟨_, _, rfl, rfl⟩
  have hfree : ∀ head xs, apply (fun _ ↦ none) (.init 4) head = some xs → 8 ∉ head :: xs := by
    intro head xs hseq
    simp only [apply, update_apply] at hseq
    grind
  have h₂ := h₁.step (show Allowed _ (.pushBack 4 8) from
    ⟨⟨[], by simp [apply]⟩, by decide, by decide, hfree⟩) ⟨_, _, rfl, rfl⟩
  have hseq : apply (apply (fun _ ↦ none) (.init 4)) (.pushBack 4 8) 4 = some [8] := by simp [apply]
  exact ⟨_, h₂, hseq, ((run_refines h₂).1 4 [8] hseq).1.segment.1⟩

end Lists

end Lanthorn
