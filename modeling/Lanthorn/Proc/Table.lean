import Lanthorn.Kernel.IdxAscending
import Lanthorn.Kernel.List

/-!
# The table of processes

`PROC` of `proc.c`: the ids of the processes in `idx_alct`, and the list `proc_ls` of all but process 0. What
`proc_new`, `proc_sys_exit` and `proc_sys_kill` do to the two, and runs of these calls. What they do to threads is
in `Proc.Process`.

While no process ends, the list has each process once and `idx_alct_find` finds the process 0 and those in the
list (`ProcState.kept_run_contract`). `proc_sys_exit` and `proc_sys_kill` take a process out of the list and leave
its id in the table: a process can be killed again, and then `list_delete` follows the stale links of its node
(`ProcState.reachable_broken`).
-/

namespace Lanthorn

open Function Library List

/-- The offset of `proc_ln` in `proc_t`. -/
def procLn : ℕ := 184

/-- `PROC`, `proc_0`, and the members `proc_ln` and `pid` of the processes. -/
structure ProcTable where
  idxAlct : IdxAlct
  /-- The address of `PROC.proc_ls`. -/
  procLs : ℕ
  /-- The address of `proc_0`. -/
  proc0 : ℕ
  links : Links ℕ
  pid : ℕ → ℤ

/-- What `proc_new` gets from `kmalloc` for the process, from `ptb_setup`, from `um_init` and from the `kmalloc` in
`idx_alct_new`. -/
structure NewAnswers where
  proc : Except Errno ℕ
  ptb : Errno
  um : Errno
  idx : Except Errno ℕ

namespace ProcTable

/-- `idx_alct_new` for a process: it stores the id in `pid` if it succeeds. -/
def newPid (s : ProcTable) (idx : Except Errno ℕ) (proc : ℕ) : Result (Errno × ProcTable) := do
  let (err, pid, alct) ← s.idxAlct.idxAlctNew idx proc
  match pid with
  | none => return (err, { s with idxAlct := alct })
  | some pid => return (err, { s with idxAlct := alct, pid := update s.pid proc pid })

/-- `p0_init`. -/
def p0Init (s : ProcTable) (idx : Except Errno ℕ) : Result (Errno × ProcTable) :=
  { s with pid := update s.pid s.proc0 0 }.newPid idx s.proc0

/-- `proc_init`, without the threads. -/
def procInit (s : ProcTable) (idx : Except Errno ℕ) : Result ProcTable := do
  let s := { s with idxAlct := s.idxAlct.idxAcltInit, links := listInit s.links s.procLs }
  let (err, s) ← s.p0Init idx
  if err = .ok then return s else throw .panic

/-- `proc_new` from `idx_alct_new` on. -/
def procEnter (s : ProcTable) (idx : Except Errno ℕ) (proc : ℕ) : Result (Errno × Option ℕ × ProcTable) := do
  let (err, s) ← s.newPid idx proc
  if err ≠ .ok then return (err, none, s)
  else do
    let links ← listPushBack s.links s.procLs (proc + procLn)
    return (err, some proc, { s with links := links })

/-- `proc_new`. The `kmfree` of its error path does nothing. -/
def procNew (s : ProcTable) (a : NewAnswers) : Result (Errno × Option ℕ × ProcTable) :=
  match a.proc with
  | .error err => return (err, none, s)
  | .ok proc =>
    if a.ptb ≠ .ok then return (a.ptb, none, s)
    else if a.um ≠ .ok then return (a.um, none, s)
    else s.procEnter a.idx proc

/-- `list_delete` of a process. -/
def unlist (s : ProcTable) (proc : ℕ) : Result ProcTable := do
  let links ← listDelete s.links (proc + procLn)
  return { s with links := links }

/-- `proc_sys_exit` of a thread of the process. -/
def procSysExit (s : ProcTable) (proc : ℕ) : Result ProcTable := s.unlist proc

/-- `proc_sys_kill` of a thread of the process `now`. -/
def procSysKill (s : ProcTable) (now : ℕ) (pid : ℤ) : Result (Errno × ProcTable) :=
  if s.pid now = pid then return (.inval, s)
  else do
    let (err, proc) ← s.idxAlct.idxAlctFind pid
    match proc with
    | none => return (err, s)
    | some proc => do
      let s ← s.unlist proc
      return (err, s)

/-- What `kmalloc` may return for a process: an address that no process in the table has. -/
def Fresh (s : ProcTable) (proc : ℕ) : Prop :=
  proc + procLn ≠ s.procLs ∧ ∀ idx ∈ s.idxAlct.idxs, s.idxAlct.addr idx ≠ proc

instance (s : ProcTable) (proc : ℕ) : Decidable (s.Fresh proc) := by
  unfold Fresh
  infer_instance

end ProcTable

/-- The table, and the processes that have been created and have not ended. -/
structure ProcState where
  table : ProcTable
  live : List ℕ

namespace ProcState

open IdxAlct (Growing FreeFrom)

inductive Action
  | new (a : NewAnswers)
  | exit (proc : ℕ)
  | kill (now : ℕ) (pid : ℤ)

/-- The allocators return memory that is not in use, and calls are made by processes that have not ended. -/
def Possible (st : ProcState) : Action → Prop
  | .new a => (∀ proc ∈ a.proc.toOption, st.table.Fresh proc) ∧ (∀ idx ∈ a.idx.toOption,
      st.table.idxAlct.Fresh idx) ∧ a.proc ≠ .error .ok ∧ a.idx ≠ .error .ok
  | .exit proc => proc ∈ st.live
  | .kill now _ => now ∈ st.live

instance (st : ProcState) (a : Action) : Decidable (st.Possible a) := by
  cases a <;> unfold Possible <;> infer_instance

def next (st : ProcState) (a : Action) : Result ProcState := do
  assert (st.Possible a)
  match a with
  | .new a => do
    let (_, proc, t) ← st.table.procNew a
    return ⟨t, st.live ++ proc.toList⟩
  | .exit proc => do
    let t ← st.table.procSysExit proc
    return ⟨t, st.live.erase proc⟩
  | .kill now pid => do
    let (err, t) ← st.table.procSysKill now pid
    return ⟨t, if err = .ok then st.live.filter (fun p ↦ st.table.pid p ≠ pid) else st.live⟩

/-- The table after `proc_init`, in which the node of process 0 is in no list, and any calls that return. -/
def system : System ProcState Action := System.ofNext
  (fun st ↦ ∃ (s : ProcTable) (idx : ℕ), IdxAlct.IsIdx idx ∧ s.procLs ≠ 0 ∧
    s.links.p (s.proc0 + procLn) = 0 ∧ s.links.n (s.proc0 + procLn) = 0 ∧
    s.procInit (.ok idx) = .ok st.table ∧ st.live = [])
  next

/-- No process ends: no call of `proc_sys_exit`, and `proc_sys_kill` only with the id of the caller or with an id
that neither process 0 nor another process has. -/
def Kept (st : ProcState) : Action → Prop
  | .new _ => True
  | .exit _ => False
  | .kill now pid => st.table.pid now = pid ∨ pid ≠ 0 ∧ ∀ p ∈ st.live, st.table.pid p ≠ pid

/-- The list has the processes that have not ended, each once and with its links in order, and `idx_alct_find` finds
process 0 and these processes. -/
structure Contract (st : ProcState) : Prop where
  list : IsRing st.table.links st.table.procLs (st.live.map (· + procLn))
  found : ∀ pid, (∃ proc, st.table.idxAlct.idxAlctFind pid = .ok (.ok, some proc)) ↔
    pid = 0 ∨ ∃ p ∈ st.live, st.table.pid p = pid

/-! ### The invariant -/

/-- The entries of the table are process 0 and the processes of the list, in the order of their creation. -/
structure Inv (st : ProcState) : Prop where
  entries : ∃ idxs, Growing st.table.idxAlct idxs ∧ idxs.map st.table.idxAlct.addr = st.table.proc0 :: st.live ∧
    (∀ idx ∈ idxs, st.table.pid (st.table.idxAlct.addr idx) = st.table.idxAlct.id idx)
  proc0 : st.table.pid st.table.proc0 = 0
  head : st.table.procLs ≠ 0
  list : IsRing st.table.links st.table.procLs (st.live.map (· + procLn))

variable {st st' : ProcState}

theorem Inv.found (h : st.Inv) (pid : ℤ) : (∃ proc, st.table.idxAlct.idxAlctFind pid = .ok (.ok, some proc)) ∧
        (pid = 0 ∨ ∃ p ∈ st.live, st.table.pid p = pid) ∨
      st.table.idxAlct.idxAlctFind pid = .ok (.notfound, none) ∧
        ¬ (pid = 0 ∨ ∃ p ∈ st.live, st.table.pid p = pid) := by
  obtain ⟨idxs, hgrowing, haddrs, hpids⟩ := h.entries
  have hmem : (pid = 0 ∨ ∃ p ∈ st.live, st.table.pid p = pid) ↔ ∃ idx ∈ idxs, st.table.idxAlct.id idx = pid := by
    have hiff : (pid = 0 ∨ ∃ p ∈ st.live, st.table.pid p = pid) ↔
        ∃ p ∈ st.table.proc0 :: st.live, st.table.pid p = pid := by rw [exists_mem_cons_iff, h.proc0, eq_comm]
    grind
  grind [IdxAlct.rbtFind_spec, hgrowing.valid, IdxAlct.idxAlctFind, ok_bind, pure_eq]

theorem Inv.contract (h : st.Inv) : st.Contract := by
  refine ⟨h.list, fun pid ↦ ?_⟩
  obtain ⟨hfind, hmem⟩ | ⟨hfind, hmem⟩ := h.found pid
  all_goals grind

variable {t : ProcTable} {proc : ℕ}

theorem newPid_cases {t' : ProcTable} {idxs : List ℕ} (h : Growing t.idxAlct idxs)
    {a : Except Errno ℕ} (hfresh : ∀ idx ∈ a.toOption, t.idxAlct.Fresh idx) {err : Errno}
    (hrun : t.newPid a proc = .ok (err, t')) :
    (a = .error err ∧ t' = t) ∨ ∃ idx v, err = .ok ∧ a = .ok idx ∧ FreeFrom 0 (idxs.map t.idxAlct.id) v ∧
      idx ∉ idxs ∧ Growing t'.idxAlct (idxs ++ [idx]) ∧ t'.idxAlct.id = update t.idxAlct.id idx v ∧
      t'.idxAlct.addr = update t.idxAlct.addr idx proc ∧
      t' = { t with idxAlct := t'.idxAlct, pid := update t.pid proc v } := by
  obtain ⟨⟨err', pid, alct⟩, hnew, hret⟩ := bind_eq_ok.mp hrun
  cases a with
  | error e =>
    obtain ⟨v, -, hnew⟩ := bind_eq_ok.mp hnew
    obtain ⟨rfl, rfl, rfl⟩ := ok_triple_inj hnew
    cases hret
    exact .inl ⟨rfl, rfl⟩
  | ok idx =>
    obtain ⟨hidx, hsep⟩ := hfresh idx rfl
    rw [h.valid.idxs_eq] at hsep
    obtain ⟨v, s', hnew', hfree, hgrowing, hid, haddr⟩ := IdxAlct.idxAlctNew_growing h hidx hsep proc
    obtain ⟨rfl, rfl, rfl⟩ := ok_triple_inj (hnew.symm.trans hnew')
    cases hret
    grind [idxTSize]

theorem Inv.newProc (h : st.Inv) {idxs : List ℕ} (hgrowing : Growing st.table.idxAlct idxs)
    (haddrs : idxs.map st.table.idxAlct.addr = st.table.proc0 :: st.live)
    (hpids : ∀ idx ∈ idxs, st.table.pid (st.table.idxAlct.addr idx) = st.table.idxAlct.id idx)
    {idx : ℕ} {v : ℤ} {alct : IdxAlct} (hfresh : st.table.Fresh proc) (hidx : idx ∉ idxs)
    (hgrowing' : Growing alct (idxs ++ [idx])) (hid : alct.id = update st.table.idxAlct.id idx v)
    (haddr : alct.addr = update st.table.idxAlct.addr idx proc) {links : Links ℕ}
    (hlist : IsRing links st.table.procLs ((st.live ++ [proc]).map (· + procLn))) :
    Inv ⟨{ st.table with idxAlct := alct, pid := update st.table.pid proc v, links := links },
      st.live ++ [proc]⟩ := by
  have hne : ∀ i ∈ idxs, st.table.idxAlct.addr i ≠ proc := fun i hi ↦
    hfresh.2 i (hgrowing.valid.idxs_eq ▸ hi)
  have hkept : ∀ i ∈ idxs, alct.id i = st.table.idxAlct.id i ∧ alct.addr i = st.table.idxAlct.addr i := by
    intro i hi
    have hii : i ≠ idx := fun heq ↦ hidx (heq ▸ hi)
    rw [hid, haddr, update_of_ne hii, update_of_ne hii]
    exact ⟨rfl, rfl⟩
  have hproc0 : st.table.proc0 ≠ proc := by
    have hmem : st.table.proc0 ∈ idxs.map st.table.idxAlct.addr := by simp [haddrs]
    obtain ⟨i, hi, heq⟩ := List.mem_map.mp hmem
    rw [← heq]
    exact hne i hi
  refine ⟨⟨idxs ++ [idx], hgrowing', ?_, ?_⟩, ?_, h.head, hlist⟩
  · rw [map_append, map_congr_left fun i hi ↦ (hkept i hi).2, haddrs, map_singleton, haddr, update_self]
    rfl
  · rw [forall_mem_append, forall_mem_singleton]
    refine ⟨fun i hi ↦ ?_, ?_⟩
    · grind
    · dsimp only
      rw [haddr, update_self, hid, update_self, update_self]
  · exact (update_of_ne hproc0 _ _).trans h.proc0

theorem Inv.pushBack (h : st.Inv) (hfresh : st.table.Fresh proc) :
    ∃ links, listPushBack st.table.links st.table.procLs (proc + procLn) = .ok links ∧
      IsRing links st.table.procLs ((st.live ++ [proc]).map (· + procLn)) := by
  obtain ⟨idxs, hgrowing, haddrs, -⟩ := h.entries
  have hnode : proc + procLn ∉ st.table.procLs :: st.live.map (· + procLn) := by
    rw [mem_cons, not_or]
    refine ⟨hfresh.1, fun hmem ↦ ?_⟩
    obtain ⟨p, hp, heq⟩ := List.mem_map.mp hmem
    obtain rfl : p = proc := Nat.add_right_cancel heq
    have hin : p ∈ idxs.map st.table.idxAlct.addr := by simp [haddrs, hp]
    obtain ⟨i, hi, haddr⟩ := List.mem_map.mp hin
    exact hfresh.2 i (hgrowing.valid.idxs_eq ▸ hi) haddr
  have hzero : 0 ∉ st.table.procLs :: st.live.map (· + procLn) := by grind [h.head, procLn]
  obtain ⟨links, hpush, hring, -⟩ := listPushBack_ring h.list hzero hnode
  exact ⟨links, hpush, by simpa using hring⟩

theorem inv_new (h : st.Inv) {a : NewAnswers} (hpossible : st.Possible (.new a)) {err : Errno}
    {res : Option ℕ} (hrun : st.table.procNew a = .ok (err, res, t)) : Inv ⟨t, st.live ++ res.toList⟩ := by
  obtain ⟨hfresh, hidx, -, herr⟩ := hpossible
  have hsame : Inv ⟨st.table, st.live ++ (none : Option ℕ).toList⟩ := by simpa using h
  unfold ProcTable.procNew at hrun
  split at hrun
  · obtain ⟨-, rfl, rfl⟩ := ok_triple_inj hrun
    exact hsame
  rename_i proc hproc
  rw [hproc] at hfresh
  split_ifs at hrun
  · obtain ⟨-, rfl, rfl⟩ := ok_triple_inj hrun
    exact hsame
  · obtain ⟨-, rfl, rfl⟩ := ok_triple_inj hrun
    exact hsame
  obtain ⟨⟨err', t'⟩, hnew, hrest⟩ := bind_eq_ok.mp hrun
  obtain ⟨idxs, hgrowing, haddrs, hpids⟩ := h.entries
  obtain ⟨ha, rfl⟩ | ⟨idx, v, rfl, ha, hfree, hnot, hgrowing', hid, haddr, ht'⟩ :=
    newPid_cases hgrowing hidx hnew
  · have hne : err' ≠ .ok := fun heq ↦ herr (heq ▸ ha)
    dsimp only at hrest
    rw [if_pos hne] at hrest
    obtain ⟨-, rfl, rfl⟩ := ok_triple_inj hrest
    exact hsame
  · dsimp only at hrest
    rw [if_neg (by simp)] at hrest
    obtain ⟨links, hpush, hret⟩ := bind_eq_ok.mp hrest
    obtain ⟨-, rfl, rfl⟩ := ok_triple_inj hret
    have hlinks : t'.links = st.table.links ∧ t'.procLs = st.table.procLs := by
      rw [ht']
      exact ⟨rfl, rfl⟩
    rw [hlinks.1, hlinks.2] at hpush
    obtain ⟨links', hpush', hring⟩ := h.pushBack (hfresh proc rfl)
    obtain rfl := Except.ok.inj (hpush.symm.trans hpush')
    have hinv := h.newProc hgrowing haddrs hpids (hfresh proc rfl) hnot hgrowing' hid haddr hring
    rw [ht']
    exact hinv

theorem procSysKill_refused (h : st.Inv) {now : ℕ} {pid : ℤ} (hkept : st.Kept (.kill now pid)) :
    ∃ err, err ≠ .ok ∧ st.table.procSysKill now pid = .ok (err, st.table) := by
  by_cases hself : st.table.pid now = pid
  · refine ⟨.inval, by simp, ?_⟩
    rw [ProcTable.procSysKill, if_pos hself]
    rfl
  · obtain ⟨hpid, hnone⟩ := hkept.resolve_left hself
    obtain ⟨-, hmem⟩ | ⟨hfind, -⟩ := h.found pid
    · obtain ⟨p, hp, heq⟩ := hmem.resolve_left hpid
      exact absurd heq (hnone p hp)
    · refine ⟨.notfound, by simp, ?_⟩
      rw [ProcTable.procSysKill, if_neg hself]
      exact bind_eq_ok.mpr ⟨_, hfind, rfl⟩

theorem inv_step (h : st.Inv) {a : Action} (hkept : st.Kept a) (hstep : system.step st a st') : st'.Inv := by
  obtain ⟨_, hpossible, hstep⟩ := bind_eq_ok.mp hstep
  replace hpossible := assert_eq_ok.mp hpossible
  cases a with
  | new a =>
    obtain ⟨⟨err, res, t⟩, hrun, hret⟩ := bind_eq_ok.mp hstep
    cases hret
    exact inv_new h hpossible hrun
  | exit proc => exact absurd hkept id
  | kill now pid =>
    obtain ⟨⟨err, t⟩, hrun, hret⟩ := bind_eq_ok.mp hstep
    cases hret
    obtain ⟨err', herr, hrun'⟩ := procSysKill_refused h hkept
    obtain ⟨rfl, rfl⟩ := ok_pair_inj (hrun.symm.trans hrun')
    rwa [if_neg herr]

theorem inv_init (h : system.init st) : st.Inv := by
  obtain ⟨s, idx, hidx, hhead, -, -, hrun, hlive⟩ := h
  obtain ⟨⟨err, t⟩, hp0, hret⟩ := bind_eq_ok.mp hrun
  obtain ⟨ha, -⟩ | ⟨idx', v, rfl, ha, hfree, -, hgrowing, hid, haddr, ht⟩ :=
    newPid_cases (IdxAlct.idxAcltInit_growing s.idxAlct) (fun i hi ↦ by
      obtain rfl : idx = i := Option.some_inj.mp hi
      exact ⟨hidx, by simp [(IdxAlct.idxAcltInit_valid s.idxAlct).idxs_eq]⟩) hp0
  · cases ha
  cases ha
  dsimp only at hret
  rw [if_pos rfl] at hret
  have hst : st.table = t := (Except.ok.inj hret).symm
  obtain rfl : v = 0 := by
    have hle := hfree.near
    have hge := hfree.le
    simp only [map_nil, length_nil] at hle
    omega
  have hfields : t.proc0 = s.proc0 ∧ t.procLs = s.procLs ∧ t.links = listInit s.links s.procLs ∧
      t.pid s.proc0 = 0 := by
    rw [ht]
    exact ⟨rfl, rfl, rfl, update_self _ _ _⟩
  refine ⟨⟨[idx], hst ▸ hgrowing, ?_, ?_⟩, ?_, ?_, ?_⟩
  · rw [hst, hlive, map_singleton, haddr, update_self, hfields.1]
  · rw [forall_mem_singleton, hst, haddr, update_self, hid, update_self, hfields.2.2.2]
  · rw [hst, hfields.1, hfields.2.2.2]
  · rw [hst, hfields.2.1]
    exact hhead
  · rw [hst, hlive, hfields.2.1, hfields.2.2.1]
    exact isRing_initHead _ _

/-- While no process ends, the list and the table have the processes that have been created. -/
theorem kept_run_contract (h : system.Run Kept st) : st.Contract :=
  (h.invariant (P := Inv) (fun _ ↦ inv_init) fun _ _ _ ↦ fun h hkept ↦ inv_step h hkept).contract

/-! ### Runs -/

instance (st : ProcState) (a : Action) : Decidable (st.Kept a) := by cases a <;> unfold Kept <;> infer_instance

/-- `PROC` and `proc_0` in memory of zeros. -/
def exampleTable : ProcTable where
  idxAlct := {
    root := 0
    id := fun _ ↦ 0
    addr := fun _ ↦ 0
    sum := fun _ ↦ 0
    tree := ⟨fun _ ↦ .red, fun _ ↦ 0, fun _ _ ↦ 0⟩ }
  procLs := 0x500
  proc0 := 0x600
  links := ⟨fun _ ↦ 0, fun _ ↦ 0⟩
  pid _ := 0

/-- Any calls after `proc_init`. -/
def exampleRun (next : ProcState → Action → Result ProcState) (acts : List Action) : Result ProcState := do
  let t ← exampleTable.procInit (.ok 0x1000)
  acts.foldlM next ⟨t, []⟩

theorem exampleTable_init (h : exampleTable.procInit (.ok 0x1000) = .ok t) : system.init ⟨t, []⟩ :=
  ⟨exampleTable, 0x1000, by simp [IdxAlct.IsIdx, idxTSize, addressSpace], by decide, rfl, rfl, h, rfl⟩

def created (proc idx : ℕ) : Action := .new ⟨.ok proc, .ok, .ok, .ok idx⟩

/-- Two processes, and a call of `proc_sys_kill` with an id that no process has. -/
theorem kept_run_contract_example : ∃ st, system.Run Kept st ∧ st.live = [0x10000, 0x11000] ∧ st.Contract := by
  have hresult : (exampleRun (System.guarded next Kept .unset)
      [created 0x10000 0x1100, created 0x11000 0x1200, .kill 0x10000 7]).map live =
        .ok [0x10000, 0x11000] := by decide +kernel
  obtain ⟨st, hcalls, hlive⟩ := map_eq_ok.mp hresult
  obtain ⟨t, hinit, hacts⟩ := bind_eq_ok.mp hcalls
  have hrun : system.Run Kept st := System.run_of_foldlM (.init (exampleTable_init hinit)) hacts
  exact ⟨st, hrun, hlive, kept_run_contract hrun⟩

/-- Four processes. The first kills the third, the fourth, and the third again. -/
def exampleKills : List Action :=
  [created 0x10000 0x1100, created 0x11000 0x1200, created 0x12000 0x1300, created 0x13000 0x1400,
    .kill 0x10000 3, .kill 0x10000 4, .kill 0x10000 3]

/-- The id of a killed process stays in the table. When the process is killed again, the links of its node are those
that it had in the list, and `list_delete` puts the fourth process, killed too, after the second. -/
theorem reachable_broken : ∃ st, system.Reachable st ∧ st.live = [0x10000, 0x11000] ∧
      (∀ procs, ¬ IsRing st.table.links st.table.procLs procs) ∧
      (∃ proc, st.table.idxAlct.idxAlctFind 3 = .ok (.ok, some proc)) ∧ ∀ p ∈ st.live, st.table.pid p ≠ 3 := by
  have hresult : (exampleRun next exampleKills).map (fun st ↦ (st.live, decide (
      st.table.links.n (st.table.links.p st.table.procLs) ≠ st.table.procLs ∧
      (st.table.idxAlct.idxAlctFind 3).toOption = some (.ok, some 0x12000) ∧
      ∀ p ∈ st.live, st.table.pid p ≠ 3))) = .ok ([0x10000, 0x11000], true) := by decide +kernel
  obtain ⟨st, hcalls, hview⟩ := map_eq_ok.mp hresult
  obtain ⟨t, hinit, hacts⟩ := bind_eq_ok.mp hcalls
  have hreach : system.Reachable st := System.reachable_of_foldlM (.init (exampleTable_init hinit)) hacts
  obtain ⟨hlive, hlinks, hfind, hpids⟩ : st.live = [0x10000, 0x11000] ∧
      st.table.links.n (st.table.links.p st.table.procLs) ≠ st.table.procLs ∧
      (st.table.idxAlct.idxAlctFind 3).toOption = some (.ok, some 0x12000) ∧
      ∀ p ∈ st.live, st.table.pid p ≠ 3 := by simpa using hview
  have hfound : st.table.idxAlct.idxAlctFind 3 = .ok (.ok, some 0x12000) := by
    cases hrun : st.table.idxAlct.idxAlctFind 3 with
    | error e => simp [hrun, Except.toOption] at hfind
    | ok result => simpa [hrun, Except.toOption] using hfind
  exact ⟨st, hreach, hlive, fun procs hring ↦ hlinks (hring.mutually_inverse _ (by simp)).2,
    ⟨_, hfound⟩, hpids⟩

end ProcState

end Lanthorn
