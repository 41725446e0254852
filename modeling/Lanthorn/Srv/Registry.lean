import Lanthorn.Kernel.Str
import Lanthorn.Library.Run
import Lanthorn.Srv.Call

/-!
# The registry of services

Model of `SRV` in `srv.c`: the red-black tree of services by name with the lock `rbt_rwlock`, and the calls that
use it, `srv_sys_register`, `srv_called` up to the message it waits for, and `srv_sys_info`. The answers of
`kmalloc`, `umalloc` and `msg_newbox` are inputs, each an error code with what it returns through its pointer.
Nobody else holds the lock, so a call that finds it taken spins for good: `Fault.endless`.

`srv_sys_register` returns without `spin_write_unlock` when the name is taken, when there is no memory and when
there is no box; `srv_sys_info` returns without `spin_read_unlock` when there is no memory. The number of
parameters is checked first. `Registry.clean_run_contract` says that these are the only faults: `Registry.Kept`,
what a call should do, holds exactly for the calls that are `Registry.Clean`, in every state that clean calls lead
to. After `Registry.reachable_locked` every call is locked out.
-/

namespace Lanthorn

open Library List

/-- The members of `struct srv_t` but the node. -/
structure Service where
  name : Str
  owner : ℕ
  boxid : ℕ
  nparam : ℕ
  deriving DecidableEq

/-- `SRV`, with the memory of the services. -/
structure Registry where
  srv : ℕ → Service
  tree : Rbt
  lock : ℤ

namespace Registry

/-- `MAX_SRV_NAME_LEN`. -/
def maxSrvNameLen : ℕ := 32

/-- The offset of `rbt_node` in `struct srv_t`. -/
def rbtNode : ℕ := 40

/-- `sizeof(struct srv_t)`. -/
def srvSize : ℕ := 60

/-! ### The lock -/

/-- The sum of two values of type `int`. -/
def atomicAdd (v a : ℤ) : ℤ := Int.bmod (v + a) addressSpace

/-- `spin_read_lock`. -/
def spinReadLock (lock : ℤ) : Result ℤ := do
  if lock = -1 then throw .endless
  let lock := atomicAdd lock 1
  assert (lock > 0)
  return lock

/-- `spin_write_lock`. -/
def spinWriteLock (lock : ℤ) : Result ℤ := do
  if lock ≠ 0 then throw .endless
  let lock := atomicAdd lock (-1)
  assert (lock = -1)
  return lock

/-- `spin_read_unlock`. -/
def spinReadUnlock (lock : ℤ) : Result ℤ := do
  assert (lock > 0)
  return atomicAdd lock (-1)

/-- `spin_write_unlock`. -/
def spinWriteUnlock (lock : ℤ) : Result ℤ := do
  assert (lock = -1)
  return 0

/-! ### The tree -/

/-- The service of a node: `container_of(n, struct srv_t, rbt_node)`. -/
def serviceOf (r : Registry) (n : ℕ) : Service := r.srv (containerOf n rbtNode)

/-- `rbt_find`: the address of the service, or nothing for `E_NOTFOUND`. -/
def rbtFind (r : Registry) (name : Str) : Result (Option ℕ) := do
  let n ← r.tree.search fun n ↦ strcmp name (r.serviceOf n).name
  return if n = 0 then none else some (containerOf n rbtNode)

/-- `rbt_insert`. -/
def rbtInsert (r : Registry) (server : ℕ) : Result (Errno × Registry) := do
  let t ← r.tree.insertBy (fun n ↦ strcmp (r.srv server).name (r.serviceOf n).name) (wordAdd server rbtNode)
  match t with
  | none => return (.exist, r)
  | some tree => return (.ok, { r with tree := tree })

/-! ### The calls -/

/-- `srv_sys_register`, called by `proc`, for the answers of `kmalloc` and `msg_newbox`. -/
def srvSysRegister (r : Registry) (name : Str) (nparam proc : ℕ) (mem box : Errno × ℕ) :
    Result (Errno × Registry) := do
  if strlenS name maxSrvNameLen = maxSrvNameLen then return (.inval, r)
  if nparam > Srv.maxCallParam then return (.inval, r)
  let lock ← spinWriteLock r.lock
  let r := { r with lock := lock }
  let found ← r.rbtFind name
  if found ≠ none then return (.exist, r)
  if mem.1 ≠ .ok then return (mem.1, r)
  let srv := mem.2
  let r := { r with srv := Function.update r.srv srv { r.srv srv with name := name } }
  if box.1 ≠ .ok then return (box.1, r)
  let r := { r with srv := Function.update r.srv srv ⟨name, proc, box.2, nparam⟩ }
  let (err, r) ← r.rbtInsert srv
  let lock ← spinWriteUnlock r.lock
  assert (err = .ok)
  return (.ok, { r with lock := lock })

/-- `srv_called`, called by `proc`; `serve` is what follows once the service is found. -/
def srvCalled (r : Registry) (name : Str) (proc : ℕ) (serve : Service → Result Errno) :
    Result (Errno × Registry) := do
  let lock ← spinReadLock r.lock
  let found ← r.rbtFind name
  let lock ← spinReadUnlock lock
  let r := { r with lock := lock }
  match found with
  | none => return (.notfound, r)
  | some srv =>
    if (r.srv srv).owner ≠ proc then return (.inval, r)
    else do
      let err ← serve (r.srv srv)
      return (err, r)

/-- `struct srv_info_t`: the name of a service, and the name and the number of its process. -/
structure SrvInfo where
  name : Str
  procName : Str
  pid : ℕ
  deriving DecidableEq

/-- What the loop of `srv_sys_info` copies from a service. -/
def infoOf (procs : ℕ → Str × ℕ) (s : Service) : SrvInfo := ⟨s.name, (procs s.owner).1, (procs s.owner).2⟩

/-- `srv_sys_info`, for the answer of `umalloc` and the processes in memory: the entries before the one
with `pid` zero. -/
def srvSysInfo (r : Registry) (procs : ℕ → Str × ℕ) (mem : Errno × ℕ) :
    Result (Errno × Registry × List SrvInfo) := do
  let lock ← spinReadLock r.lock
  let r := { r with lock := lock }
  let first ← r.tree.rbtFirst
  let _ ← Rbt.rbtRep (fun _ ↦ r.tree.mem) (fun _ tot ↦ .ok (.ok, tot + 1)) addressSpace first 1
  if mem.1 ≠ .ok then return (mem.1, r, [])
  let (_, info) ← Rbt.rbtRep (fun _ ↦ r.tree.mem)
    (fun p info ↦ .ok (.ok, info ++ [infoOf procs (r.serviceOf p)])) addressSpace first []
  let lock ← spinReadUnlock r.lock
  return (.ok, { r with lock := lock }, info)

/-- A call with its circumstances. What `srv_called` returns behind the look-up is an input here. -/
inductive Call
  | register (name : Str) (nparam proc : ℕ) (mem box : Errno × ℕ)
  | called (name : Str) (proc : ℕ) (served : Errno)
  | info (procs : ℕ → Str × ℕ) (mem : Errno × ℕ)

def call (r : Registry) : Call → Result (Errno × Registry)
  | .register name nparam proc mem box => r.srvSysRegister name nparam proc mem box
  | .called name proc served => r.srvCalled name proc fun _ ↦ .ok served
  | .info procs mem => do
    let (err, r, _) ← r.srvSysInfo procs mem
    return (err, r)

/-! ### What the calls should do -/

def services (r : Registry) : List Service := r.tree.nodes.map r.serviceOf

def Registered (r : Registry) (name : Str) : Prop := name ∈ r.services.map Service.name

instance (r : Registry) (name : Str) : Decidable (r.Registered name) :=
  inferInstanceAs (Decidable (_ ∈ _))

/-- `kmalloc` returns memory that no registered service occupies. -/
def Possible (r : Registry) : Call → Prop
  | .register _ _ _ mem _ =>
    mem.1 = .ok → mem.2 ≠ 0 ∧ mem.2 + srvSize ≤ addressSpace ∧ mem.2 + rbtNode ∉ r.tree.nodes
  | _ => True

instance (r : Registry) (c : Call) : Decidable (r.Possible c) := match c with
  | .register _ _ _ _ _ => inferInstanceAs (Decidable (_ → _))
  | .called _ _ _ => isTrue trivial
  | .info _ _ => isTrue trivial

/-- `E_EXIST` is for names that are taken and only for these. -/
def ExistIff (r : Registry) (err : Errno) : Call → Prop
  | .register name _ _ _ _ => err = .exist ↔ r.Registered name
  | _ => True

/-- What a call should do: `E_EXIST` is for names that are taken and only for these, a call that fails leaves
the services as they were, and the lock is given back. -/
def Kept (r : Registry) (c : Call) : Prop :=
  ∃ err r', r.call c = .ok (err, r') ∧ r.ExistIff err c ∧ (err ≠ .ok → r'.services = r.services) ∧ r'.lock = r.lock

def Clean (r : Registry) : Call → Prop
  | .register name nparam _ mem box =>
    ¬ r.Registered name ∧ (maxSrvNameLen ≤ name.length ∨ Srv.maxCallParam < nparam ∨ mem.1 = .ok ∧ box.1 = .ok)
  | .called _ _ _ => True
  | .info _ mem => mem.1 = .ok

instance (r : Registry) (c : Call) : Decidable (r.Clean c) := match c with
  | .register _ _ _ _ _ => inferInstanceAs (Decidable (_ ∧ _))
  | .called _ _ _ => isTrue trivial
  | .info _ _ => inferInstanceAs (Decidable (_ = _))

/-! ### The invariant -/

theorem spinReadLock_zero : spinReadLock 0 = .ok 1 := by decide

theorem spinReadUnlock_one : spinReadUnlock 1 = .ok 0 := by decide

theorem spinWriteLock_zero : spinWriteLock 0 = .ok (-1) := by decide

/-- The tree of a registry: the nodes are those of services in memory, with short names in ascending order. -/
structure Wf (r : Registry) : Prop where
  keyed : Rbt.Named (fun n ↦ (r.serviceOf n).name) r.tree r.tree.nodes
  node : ∀ n ∈ r.tree.nodes, ∃ a, n = a + rbtNode ∧ a + srvSize ≤ addressSpace
  short : ∀ n ∈ r.tree.nodes, (r.serviceOf n).name.length < maxSrvNameLen

section Lemmas

variable {r r' : Registry} {name : Str} {nparam proc : ℕ} {mem box : Errno × ℕ} {err : Errno}

theorem registered_iff : r.Registered name ↔ ∃ n ∈ r.tree.nodes, (r.serviceOf n).name = name := by
  simp [Registered, services]

theorem Wf.withLock (h : r.Wf) (lock : ℤ) : Wf { r with lock := lock } := ⟨h.keyed, h.node, h.short⟩

theorem Wf.rbtFind_some (h : r.Wf) (hreg : r.Registered name) :
    ∃ n ∈ r.tree.nodes, (r.serviceOf n).name = name ∧ r.rbtFind name = .ok (some (containerOf n rbtNode)) := by
  obtain ⟨n, hn, hname⟩ := registered_iff.mp hreg
  have hsearch := Rbt.Named.search h.keyed hn hname
  refine ⟨n, hn, hname, ?_⟩
  simp [rbtFind, hsearch, h.keyed.ne_zero hn]

theorem Wf.rbtFind_none (h : r.Wf) (hreg : ¬ r.Registered name) : r.rbtFind name = .ok none := by
  have hsearch := Rbt.Named.search_none h.keyed fun n hn heq ↦ hreg (registered_iff.mpr ⟨n, hn, heq⟩)
  simp [rbtFind, hsearch]

theorem Wf.serviceOf_update (h : r.Wf) {a n : ℕ} (hfresh : a + rbtNode ∉ r.tree.nodes)
    (hn : n ∈ r.tree.nodes) (s : Service) :
    serviceOf { r with srv := Function.update r.srv a s } n = r.serviceOf n := by
  obtain ⟨b, rfl, hb⟩ := h.node n hn
  have hab : b ≠ a := fun hab ↦ hfresh (hab ▸ hn)
  have hcontainer : containerOf (b + rbtNode) rbtNode = b :=
    containerOf_add (by simp only [rbtNode, srvSize] at hb ⊢; omega)
  simp [serviceOf, hcontainer, Function.update_of_ne hab]

theorem Wf.update (h : r.Wf) {a : ℕ} (hfresh : a + rbtNode ∉ r.tree.nodes) (s : Service) :
    Wf { r with srv := Function.update r.srv a s } := by
  refine ⟨?_, h.node, fun n hn ↦ ?_⟩
  · exact h.keyed.congr (fun _ _ ↦ .refl _ _) fun n hn ↦
      congrArg (fun s : Service ↦ s.name.key) (h.serviceOf_update hfresh hn s)
  · rw [h.serviceOf_update hfresh hn]
    exact h.short n hn

theorem Wf.services_update (h : r.Wf) {a : ℕ} (hfresh : a + rbtNode ∉ r.tree.nodes) (s : Service) :
    services { r with srv := Function.update r.srv a s } = r.services :=
  map_congr_left fun _ hn ↦ h.serviceOf_update hfresh hn s

theorem Wf.rbtInsert (h : r.Wf) {a : ℕ} (ha : a ≠ 0) (hroom : a + srvSize ≤ addressSpace)
    (hfresh : a + rbtNode ∉ r.tree.nodes) (hshort : (r.srv a).name.length < maxSrvNameLen)
    (hnew : ¬ r.Registered (r.srv a).name) :
    ∃ tree, r.rbtInsert a = .ok (.ok, { r with tree := tree }) ∧ Wf { r with tree := tree } ∧
      (services { r with tree := tree }).Perm (r.srv a :: r.services) := by
  have hword : a + rbtNode < addressSpace := by
    simp only [rbtNode, srvSize] at hroom ⊢
    omega
  have hself : r.serviceOf (a + rbtNode) = r.srv a := by rw [serviceOf, containerOf_add hword]
  obtain ⟨tree, ys, zs, hrun, hsplit, hkeyed, -⟩ := Rbt.Named.insertBy (s := (r.srv a).name) h.keyed
    (by omega) hword hfresh (by rw [hself]) fun n hn heq ↦ hnew (registered_iff.mpr ⟨n, hn, heq⟩)
  have hnodes : tree.nodes = ys ++ (a + rbtNode) :: zs := hkeyed.nodes_eq
  have hperm : tree.nodes.Perm ((a + rbtNode) :: r.tree.nodes) := by
    rw [hnodes, hsplit]
    exact perm_middle
  refine ⟨tree, ?_, ⟨?_, fun n hn ↦ ?_, fun n hn ↦ ?_⟩, ?_⟩
  · simp [Registry.rbtInsert, wordAdd_of_lt hword, hrun]
  · exact hnodes ▸ hkeyed
  · obtain rfl | hn := List.mem_cons.mp (hperm.mem_iff.mp hn)
    · exact ⟨a, rfl, hroom⟩
    · exact h.node n hn
  · obtain rfl | hn := List.mem_cons.mp (hperm.mem_iff.mp hn)
    · exact hself.symm ▸ hshort
    · exact h.short n hn
  · have hmap := hperm.map r.serviceOf
    rwa [map_cons, hself] at hmap

/-! ### What each call does -/

/-- The arguments pass the checks of `srv_sys_register`. -/
def Valid (name : Str) (nparam : ℕ) : Prop := name.length < maxSrvNameLen ∧ nparam ≤ Srv.maxCallParam

theorem srvSysRegister_invalid (hinvalid : ¬ Valid name nparam) :
    r.srvSysRegister name nparam proc mem box = .ok (.inval, r) := by
  simp only [Valid, not_and_or, not_lt, not_le] at hinvalid
  unfold srvSysRegister strlenS
  by_cases hlong : maxSrvNameLen ≤ name.length
  · rw [if_pos (by omega)]
    rfl
  · rw [if_neg (by omega), if_pos (by omega)]
    rfl

theorem srvSysRegister_valid (hvalid : Valid name nparam) (hlock : r.lock = 0) :
    r.srvSysRegister name nparam proc mem box = (do
      let found ← r.rbtFind name
      if found ≠ none then return (.exist, { r with lock := -1 })
      if mem.1 ≠ .ok then return (mem.1, { r with lock := -1 })
      if box.1 ≠ .ok then
        return (box.1, { r with
          srv := Function.update r.srv mem.2 { r.srv mem.2 with name := name }
          lock := -1 })
      let (err, r') ← rbtInsert { r with
        srv := Function.update r.srv mem.2 ⟨name, proc, box.2, nparam⟩
        lock := -1 } mem.2
      let lock ← spinWriteUnlock r'.lock
      assert (err = .ok)
      return (.ok, { r' with lock := lock })) := by
  obtain ⟨hshort, hparam⟩ := hvalid
  unfold srvSysRegister strlenS
  rw [if_neg (by omega), if_neg (by omega), hlock, spinWriteLock_zero]
  simp only [Function.update_idem, ok_bind]
  rfl

section

variable (h : r.Wf) (hlock : r.lock = 0)
include h hlock

section

variable (hvalid : Valid name nparam)
include hvalid

theorem Wf.srvSysRegister_exist (hreg : r.Registered name) :
    r.srvSysRegister name nparam proc mem box = .ok (.exist, { r with lock := -1 }) := by
  obtain ⟨n, -, -, hfind⟩ := h.rbtFind_some hreg
  simp [srvSysRegister_valid hvalid hlock, hfind]

theorem Wf.srvSysRegister_nomem (hreg : ¬ r.Registered name) (hmem : mem.1 ≠ .ok) :
    r.srvSysRegister name nparam proc mem box = .ok (mem.1, { r with lock := -1 }) := by
  simp [srvSysRegister_valid hvalid hlock, h.rbtFind_none hreg, hmem]

theorem Wf.srvSysRegister_nobox (hreg : ¬ r.Registered name) (hmem : mem.1 = .ok) (hbox : box.1 ≠ .ok) :
    r.srvSysRegister name nparam proc mem box = .ok (box.1, { r with
      srv := Function.update r.srv mem.2 { r.srv mem.2 with name := name }
      lock := -1 }) := by simp [srvSysRegister_valid hvalid hlock, h.rbtFind_none hreg, hmem, hbox]

theorem Wf.srvSysRegister_ok (hreg : ¬ r.Registered name) (hmem : mem.1 = .ok) (hbox : box.1 = .ok)
    (hpossible : r.Possible (.register name nparam proc mem box)) :
    ∃ r', r.srvSysRegister name nparam proc mem box = .ok (.ok, r') ∧ r'.Wf ∧ r'.lock = 0 ∧
      r'.services.Perm (⟨name, proc, box.2, nparam⟩ :: r.services) := by
  obtain ⟨hne, hroom, hfresh⟩ := hpossible hmem
  let s : Service := ⟨name, proc, box.2, nparam⟩
  let r₁ : Registry := { r with
    srv := Function.update r.srv mem.2 s
    lock := -1 }
  have h₁ : r₁.Wf := (h.update hfresh s).withLock (-1)
  have hsrv : r₁.srv mem.2 = s := Function.update_self ..
  have hservices : r₁.services = r.services := h.services_update hfresh s
  have hnew : ¬ r₁.Registered (r₁.srv mem.2).name := by
    rw [hsrv, Registered, hservices]
    exact hreg
  obtain ⟨tree, hinsert, hwf, hperm⟩ := h₁.rbtInsert hne hroom hfresh (hsrv ▸ hvalid.1) hnew
  rw [hsrv, hservices] at hperm
  refine ⟨{ r₁ with tree := tree, lock := 0 }, ?_, hwf.withLock 0, rfl, hperm⟩
  rw [srvSysRegister_valid hvalid hlock, h.rbtFind_none hreg]
  refine bind_eq_ok.mpr ⟨none, rfl, ?_⟩
  rw [if_neg (by simp), if_neg (by simp [hmem]), if_neg (by simp [hbox])]
  exact bind_eq_ok.mpr ⟨_, hinsert, rfl⟩

end

theorem Wf.srvCalled_eq (serve : Service → Result Errno) : r.srvCalled name proc serve = (do
      let found ← r.rbtFind name
      match found with
      | none => return (.notfound, r)
      | some srv =>
        if (r.srv srv).owner ≠ proc then return (.inval, r)
        else do
          let err ← serve (r.srv srv)
          return (err, r)) := by
  unfold srvCalled
  rw [hlock, spinReadLock_zero]
  by_cases hreg : r.Registered name
  · obtain ⟨n, -, -, hfind⟩ := h.rbtFind_some hreg
    simp [hfind, spinReadUnlock_one, ← hlock]
  · simp [h.rbtFind_none hreg, spinReadUnlock_one, ← hlock]

theorem Wf.srvCalled_returns (served : Errno) :
    ∃ err, r.srvCalled name proc (fun _ ↦ .ok served) = .ok (err, r) := by
  rw [h.srvCalled_eq hlock]
  by_cases hreg : r.Registered name
  · obtain ⟨n, -, -, hfind⟩ := h.rbtFind_some hreg
    by_cases howner : (r.srv (containerOf n rbtNode)).owner = proc
    · exact ⟨served, by simp [hfind, howner]⟩
    · exact ⟨.inval, by simp [hfind, howner]⟩
  · exact ⟨.notfound, by simp [h.rbtFind_none hreg]⟩

theorem Wf.srvSysInfo_eq (procs : ℕ → Str × ℕ) (mem : Errno × ℕ) :
    r.srvSysInfo procs mem = .ok (if mem.1 = .ok then (.ok, r, r.services.map (infoOf procs))
      else (mem.1, { r with lock := 1 }, [])) := by
  have hcount := h.keyed.rbtRep_eq (fun tot _ ↦ tot + 1) 1
  have hcopy := h.keyed.rbtRep_eq (fun info p ↦ info ++ [infoOf procs (r.serviceOf p)]) []
  have hlist : r.tree.nodes.foldl (fun info p ↦ info ++ [infoOf procs (r.serviceOf p)]) [] =
      r.services.map (infoOf procs) := by
    rw [foldl_append_eq_append, services, map_map, nil_append, ← flatMap_def]
    exact flatMap_pure_eq_map _ _
  unfold srvSysInfo
  rw [hlock, spinReadLock_zero]
  refine bind_eq_ok.mpr ⟨1, rfl, bind_eq_ok.mpr ⟨_, h.keyed.rbtFirst, bind_eq_ok.mpr ⟨_, hcount, ?_⟩⟩⟩
  by_cases hmem : mem.1 = .ok
  · rw [if_neg (by simpa using hmem), if_pos hmem]
    refine bind_eq_ok.mpr ⟨_, hcopy, bind_eq_ok.mpr ⟨0, spinReadUnlock_one, ?_⟩⟩
    simp [hlist, ← hlock]
  · rw [if_pos hmem, if_neg hmem]
    rfl

end

/-! ### Runs -/

/-- `SRV` as `srv_init` finds and leaves it: static memory is zero. -/
def Initial (r : Registry) : Prop := r.tree.root = 0 ∧ r.lock = 0

def next (r : Registry) (c : Call) : Result Registry := do
  let (_, r) ← r.call c
  return r

def system : System Registry Call := System.ofNext Initial next

structure Inv (r : Registry) : Prop extends r.Wf where
  unlocked : r.lock = 0

theorem inv_initial (hinit : Initial r) : r.Inv := by
  obtain ⟨hroot, hlock⟩ := hinit
  have hkeyed : Rbt.Named (fun n ↦ (r.serviceOf n).name) r.tree [] := by
    have hempty := Rbt.Keyed.empty (fun n ↦ (r.serviceOf n).name.key) r.tree.mem
    rwa [← hroot] at hempty
  have hnodes : r.tree.nodes = [] := hkeyed.nodes_eq
  exact ⟨⟨hnodes ▸ hkeyed, by simp [hnodes], by simp [hnodes]⟩, hlock⟩

section

variable (h : r.Inv) {c : Call}
include h

theorem Inv.clean (hpossible : r.Possible c) (hclean : r.Clean c) :
    ∃ err r', r.call c = .ok (err, r') ∧ r'.Inv ∧ r.ExistIff err c ∧ (err ≠ .ok → r'.services = r.services) := by
  cases c with
  | register name nparam proc mem box =>
    obtain ⟨hnew, hclean⟩ := hclean
    by_cases hvalid : Valid name nparam
    · have hanswers : mem.1 = .ok ∧ box.1 = .ok := by
        obtain ⟨hshort, hparam⟩ := hvalid
        exact (hclean.resolve_left hshort.not_ge).resolve_left hparam.not_gt
      obtain ⟨r', hrun, hwf, hlock, -⟩ :=
        h.srvSysRegister_ok h.unlocked hvalid hnew hanswers.1 hanswers.2 hpossible
      exact ⟨.ok, r', hrun, ⟨hwf, hlock⟩, by simp [ExistIff, hnew], fun hne ↦ absurd rfl hne⟩
    · exact ⟨.inval, r, srvSysRegister_invalid hvalid, h, by simp [ExistIff, hnew], fun _ ↦ rfl⟩
  | called name proc served =>
    obtain ⟨err, hrun⟩ : ∃ err, r.srvCalled name proc (fun _ ↦ .ok served) = .ok (err, r) :=
      h.srvCalled_returns h.unlocked served
    exact ⟨err, r, hrun, h, trivial, fun _ ↦ rfl⟩
  | info procs mem =>
    have hmem : mem.1 = .ok := hclean
    have hrun := h.srvSysInfo_eq h.unlocked procs mem
    rw [if_pos hmem] at hrun
    exact ⟨.ok, r, by simp [call, hrun], h, trivial, fun _ ↦ rfl⟩

theorem Inv.unclean (hclean : ¬ r.Clean c) :
    ∃ err r', r.call c = .ok (err, r') ∧ (r'.lock ≠ 0 ∨
      ∃ name nparam proc mem box, c = .register name nparam proc mem box ∧ r.Registered name ∧ err ≠ .exist) := by
  cases c with
  | register name nparam proc mem box =>
    by_cases hvalid : Valid name nparam
    · by_cases hreg : r.Registered name
      · exact ⟨_, _, h.srvSysRegister_exist h.unlocked hvalid hreg, .inl (by simp)⟩
      by_cases hmem : mem.1 = .ok
      · have hbox : box.1 ≠ .ok := fun hbox ↦ hclean ⟨hreg, .inr (.inr ⟨hmem, hbox⟩)⟩
        exact ⟨_, _, h.srvSysRegister_nobox h.unlocked hvalid hreg hmem hbox, .inl (by simp)⟩
      · exact ⟨_, _, h.srvSysRegister_nomem h.unlocked hvalid hreg hmem, .inl (by simp)⟩
    · have hreg : r.Registered name := by
        by_contra hreg
        refine hclean ⟨hreg, ?_⟩
        simp only [Valid, not_and_or, not_lt, not_le] at hvalid
        exact hvalid.imp id .inl
      exact ⟨_, _, srvSysRegister_invalid hvalid, .inr ⟨name, nparam, proc, mem, box, rfl, hreg, by simp⟩⟩
  | called name proc served => exact absurd trivial hclean
  | info procs mem =>
    have hmem : ¬ mem.1 = .ok := hclean
    have hrun := h.srvSysInfo_eq h.unlocked procs mem
    rw [if_neg hmem] at hrun
    refine ⟨mem.1, { r with lock := 1 }, ?_, .inl (by simp)⟩
    simp only [call, hrun, ok_bind, pure_eq]

theorem Inv.kept_iff (hpossible : r.Possible c) : r.Kept c ↔ r.Clean c := by
  refine ⟨fun hkept ↦ ?_, fun hclean ↦ ?_⟩
  · by_contra hclean
    obtain ⟨err, r', hrun, hbad⟩ := h.unclean hclean
    obtain ⟨err', r'', hrun', hexist, -, hlock⟩ := hkept
    obtain ⟨rfl, rfl⟩ := ok_pair_inj (hrun.symm.trans hrun')
    obtain hheld | ⟨name, nparam, proc, mem, box, rfl, hreg, hcode⟩ := hbad
    · exact hheld (hlock.trans h.unlocked)
    · exact hcode (hexist.mpr hreg)
  · obtain ⟨err, r', hrun, h', hexist, hsame⟩ := h.clean hpossible hclean
    exact ⟨err, r', hrun, hexist, hsame, h'.unlocked.trans h.unlocked.symm⟩

theorem Inv.returns (hpossible : r.Possible c) : ∃ err r', r.call c = .ok (err, r') := by
  by_cases hclean : r.Clean c
  all_goals grind [h.clean, h.unclean]

theorem inv_step (hpossible : r.Possible c) (hclean : r.Clean c) (hstep : r.next c = .ok r') : r'.Inv := by
  obtain ⟨err, r₁, hrun, h₁, -⟩ := h.clean hpossible hclean
  obtain ⟨⟨err', r₂⟩, hrun', hstep⟩ := bind_eq_ok.mp hstep
  obtain ⟨rfl, rfl⟩ := ok_pair_inj (hrun.symm.trans hrun')
  cases hstep
  exact h₁

end

structure Contract (r : Registry) : Prop where
  unlocked : r.lock = 0
  returns : ∀ c, r.Possible c → ∃ err r', r.call c = .ok (err, r')
  kept_iff : ∀ c, r.Possible c → (r.Kept c ↔ r.Clean c)
  registers : ∀ name nparam proc mem box, r.Possible (.register name nparam proc mem box) →
    Valid name nparam → ¬ r.Registered name → mem.1 = .ok → box.1 = .ok →
    ∃ r', r.srvSysRegister name nparam proc mem box = .ok (.ok, r') ∧
      r'.services.Perm (⟨name, proc, box.2, nparam⟩ :: r.services)
  lists : ∀ procs mem, mem.1 = .ok → r.srvSysInfo procs mem = .ok (.ok, r, r.services.map (infoOf procs))

theorem Inv.contract (h : r.Inv) : r.Contract where
  unlocked := h.unlocked
  returns _ hpossible := h.returns hpossible
  kept_iff _ hpossible := h.kept_iff hpossible
  registers _ _ _ _ _ hpossible hvalid hnew hmem hbox := by grind [h.srvSysRegister_ok, h.unlocked]
  lists procs mem hmem := by rw [h.srvSysInfo_eq h.unlocked, if_pos hmem]

/-- In every state that clean calls lead to, the lock is free, every call returns, and the calls that do
what they should are the clean ones. -/
theorem clean_run_contract (hrun : system.Run (fun r c ↦ r.Possible c ∧ r.Clean c) r) : r.Contract :=
  Inv.contract (System.Run.invariant (P := Inv) (fun _ hinit ↦ inv_initial hinit)
    (fun _ _ _ hinv hallowed hstep ↦ inv_step hinv hallowed.1 hallowed.2 hstep) hrun)

end Lemmas

/-! ### An example -/

def exampleInit : Registry := ⟨fun _ ↦ ⟨[], 0, 0, 0⟩, ⟨⟨fun _ ↦ .black, fun _ ↦ 0, fun _ _ ↦ 0⟩, 0⟩, 0⟩

/-- Process 7 registers the service `a` with one parameter. -/
def exampleCall : Call := .register [0x61#8] 1 7 (.ok, 4096) (.ok, 1)

theorem exampleInit_call : (exampleInit.call exampleCall).map (fun x ↦ (x.2.services, x.2.tree.nodes)) =
      .ok ([⟨[0x61#8], 7, 1, 1⟩], [4136]) := by decide +kernel

def exampleAgain : Call := .register [0x61#8] 1 8 (.ok, 8192) (.ok, 2)

theorem exampleCall_clean : exampleInit.Possible exampleCall ∧ exampleInit.Clean exampleCall := by decide +kernel

theorem exampleInit_next : ∃ r, exampleInit.next exampleCall = .ok r ∧
    r.services = [⟨[0x61#8], 7, 1, 1⟩] ∧ r.tree.nodes = [4136] := by
  obtain ⟨⟨err, r⟩, hcall, hview⟩ := map_eq_ok.mp exampleInit_call
  have hnext : exampleInit.next exampleCall = .ok r := by simp [next, hcall]
  exact ⟨r, hnext, Prod.mk.inj hview⟩

theorem exampleInit_inv : ∃ r : Registry, r.Inv ∧ r.services = [⟨[0x61#8], 7, 1, 1⟩] := by
  obtain ⟨r, hnext, hservices, -⟩ := exampleInit_next
  exact ⟨r, inv_step (inv_initial ⟨rfl, rfl⟩) exampleCall_clean.1 exampleCall_clean.2 hnext, hservices⟩

theorem clean_run_contract_example : ∃ r : Registry, r.services = [⟨[0x61#8], 7, 1, 1⟩] ∧ r.Contract := by
  obtain ⟨r, hnext, hservices, -⟩ := exampleInit_next
  exact ⟨r, hservices, clean_run_contract (.step (.init ⟨rfl, rfl⟩) exampleCall_clean hnext)⟩

/-- After a second registration of the same name the lock stays taken, and every later registration,
call and listing spins for good. -/
theorem reachable_locked : ∃ r, system.Run Possible r ∧ r.Possible exampleAgain ∧ ¬ r.Kept exampleAgain ∧
    ∃ r', r.call exampleAgain = .ok (.exist, r') ∧ r'.lock = -1 ∧ (∀ name nparam proc mem box, Valid name nparam →
        r'.call (.register name nparam proc mem box) = .error .endless) ∧
      (∀ name proc served, r'.call (.called name proc served) = .error .endless) ∧
      ∀ procs mem, r'.call (.info procs mem) = .error .endless := by
  obtain ⟨r, hnext, hservices, hnodes⟩ := exampleInit_next
  have hinv := inv_step (inv_initial ⟨rfl, rfl⟩) exampleCall_clean.1 exampleCall_clean.2 hnext
  have hreg : r.Registered [0x61#8] := by simp [Registered, hservices]
  have hcall : r.call exampleAgain = .ok (.exist, { r with lock := -1 }) :=
    hinv.srvSysRegister_exist hinv.unlocked ⟨by decide, by decide⟩ hreg
  refine ⟨r, .step (.init ⟨rfl, rfl⟩) exampleCall_clean.1 hnext, ?_, ?_, { r with lock := -1 }, hcall, rfl,
    fun name nparam proc mem box hvalid ↦ ?_, fun name proc served ↦ rfl, fun procs mem ↦ rfl⟩
  · intro _
    simp [hnodes, rbtNode, srvSize, addressSpace]
  · rintro ⟨err, r', hrun, -, -, hlock⟩
    obtain ⟨-, rfl⟩ := ok_pair_inj (hcall.symm.trans hrun)
    simp [hinv.unlocked] at hlock
  · obtain ⟨hshort, hparam⟩ := hvalid
    simp only [call, srvSysRegister, strlenS]
    rw [if_neg (by omega), if_neg (by omega)]
    rfl

end Registry

end Lanthorn
