import Lanthorn.Library.Run
import Lanthorn.Memory.Um

/-!
# Runs of the slab allocator

`slab_free`, and runs of `slab_alloc` and `slab_free` over the objects that are in use. `alloc` and `free` of
the allocator are the outside: a page comes from `alloc`, is a slab page until it is handed to `free`, and may
come again after that.

An allocator has one current page, which it knows only by `freep`. `Slab.Inv` says that the objects in use
that are in this page end below `freep`, and that `freep` never reaches the end of the page. From it
`Slab.slab_contract`: in every reachable state the objects are apart and beside the counters, the counters
count them, and each call does what it is for.
-/

namespace Lanthorn

open Library List

namespace SlabAlct

/-- `(*cnt)--`. -/
def release (s : SlabAlct) (addr : ℕ) : SlabAlct :=
  { s with
    cnt := Function.update s.cnt (getCnt addr) ((s.cnt (getCnt addr) + addressSpace - 1) % addressSpace) }

/-- `slab_free` forgets its current page if it is this one. -/
def forget (s : SlabAlct) (page : ℕ) : SlabAlct :=
  { s with freep := if roundDown s.freep pageSize = page then 0 else s.freep }

/-- `freep` is an address in the page. -/
def PointsInto (freep page : ℕ) : Prop := freep ≠ 0 ∧ page ≤ freep ∧ freep < page + pageSize

end SlabAlct

/-- `slab_free` for a slab inside a larger state. -/
def slabFree {σ : Type} (slab : σ → SlabAlct) (setSlab : σ → SlabAlct → σ)
    (free : ℕ → σ → Result (Errno × σ)) (addr : ℕ) (st : σ) : Result (Errno × σ) :=
  let s := (slab st).release addr
  if s.cnt (SlabAlct.getCnt addr) = 0 then
    free (SlabAlct.getCnt addr) (setSlab st (s.forget (SlabAlct.getCnt addr)))
  else return (.ok, setSlab st s)

/-- An object in use: the address from `slab_alloc`, and the size that was asked for. -/
structure SlabObj where
  addr : ℕ
  size : ℕ
  deriving DecidableEq, Repr

namespace SlabObj

def page (o : SlabObj) : ℕ := SlabAlct.getCnt o.addr

def Apart (o o' : SlabObj) : Prop := o.addr + o.size ≤ o'.addr ∨ o'.addr + o'.size ≤ o.addr

def Within (o : SlabObj) (page : ℕ) : Prop :=
  page + SlabAlct.uintSize ≤ o.addr ∧ o.addr + o.size ≤ page + pageSize

end SlabObj

/-- A slab with its pages, the objects in use, and the pages that were handed to `free`, each with `freep` at
that moment. -/
structure Slab where
  alct : SlabAlct
  pages : List ℕ
  live : List SlabObj
  handed : List (ℕ × ℕ)

/-- A call, with the answers of `alloc` and `free`. -/
inductive SlabCall
  | alloc (size : ℕ) (answer : Except Errno ℕ)
  | free (o : SlabObj) (answer : Errno)

namespace Slab

def setAlct (s : Slab) (alct : SlabAlct) : Slab := { s with alct := alct }

/-- `alct->alloc`. -/
def takePage (answer : Except Errno ℕ) (_size : ℕ) (s : Slab) : Result (Errno × Option ℕ × Slab) :=
  match answer with
  | .ok page => return (.ok, some page, { s with pages := page :: s.pages })
  | .error err => return (err, none, s)

/-- `alct->free`. -/
def handPage (answer : Errno) (page : ℕ) (s : Slab) : Result (Errno × Slab) :=
  return (answer, { s with pages := s.pages.erase page, handed := s.handed ++ [(page, s.alct.freep)] })

/-- The object that a call of `slab_alloc` has given, if any, is in use. -/
def give (s : Slab) (size : ℕ) : Option ℕ → Slab
  | none => s
  | some addr => { s with live := ⟨addr, size⟩ :: s.live }

def call (s : Slab) : SlabCall → Result (Errno × Slab)
  | .alloc size answer => do
    let (err, addr, s) ← slabAlloc alct setAlct (takePage answer) size s
    return (err, s.give size addr)
  | .free o answer => slabFree alct setAlct (handPage answer) o.addr { s with live := s.live.erase o }

def next (s : Slab) (c : SlabCall) : Result Slab := do
  let (_, s) ← s.call c
  return s

/-- The sizes are those of `kmalloc` and `umalloc`, `alloc` fails or returns a page that is no slab page, and
only objects in use are freed. -/
def Allowed (s : Slab) : SlabCall → Prop
  | .alloc size (.ok page) => 0 < size ∧ size ≤ szSlabAllocMax ∧ page % pageSize = 0 ∧
      page < addressSpace ∧ page ∉ s.pages
  | .alloc size (.error err) => 0 < size ∧ size ≤ szSlabAllocMax ∧ err ≠ .ok
  | .free o _ => o ∈ s.live

instance (s : Slab) : (c : SlabCall) → Decidable (s.Allowed c)
  | .alloc _ (.ok _) => inferInstanceAs (Decidable (_ ∧ _))
  | .alloc _ (.error _) => inferInstanceAs (Decidable (_ ∧ _))
  | .free o _ => inferInstanceAs (Decidable (o ∈ s.live))

/-- After `slab_init`, whatever the memory of the counters holds. -/
def Initial (s : Slab) : Prop := s.alct.freep = 0 ∧ s.pages = [] ∧ s.live = [] ∧ s.handed = []

def system : System Slab SlabCall := .ofNext Initial next

def Reached (s : Slab) : Prop := system.Run Allowed s

def nlive (live : List SlabObj) (page : ℕ) : ℕ := live.countP fun o ↦ o.page = page

/-! ### The invariant -/

/-- The objects in use are apart, beside the counters of the slab pages, and counted by them; no slab page is
empty, and none was handed to `free` while `freep` pointed into it. -/
structure Sound (s : Slab) : Prop where
  apart : s.live.Pairwise SlabObj.Apart
  within : ∀ o ∈ s.live, o.page ∈ s.pages ∧ o.Within o.page
  counted : ∀ page ∈ s.pages, s.alct.cnt page = nlive s.live page
  used : ∀ page ∈ s.pages, 0 < nlive s.live page
  handed : ∀ h ∈ s.handed, ¬ SlabAlct.PointsInto h.2 h.1

/-- What holds between and inside the calls; a page that has just been begun is empty. -/
structure Inv (s : Slab) : Prop where
  nodup : s.pages.Nodup
  aligned : ∀ page ∈ s.pages, page % pageSize = 0 ∧ page < addressSpace
  pos : ∀ o ∈ s.live, 0 < o.size
  apart : s.live.Pairwise SlabObj.Apart
  within : ∀ o ∈ s.live, o.page ∈ s.pages ∧ o.Within o.page
  counted : ∀ page ∈ s.pages, s.alct.cnt page = nlive s.live page
  current : s.alct.freep = 0 ∨ ∃ page ∈ s.pages, page + SlabAlct.uintSize ≤ s.alct.freep ∧
    s.alct.freep < page + pageSize ∧ ∀ o ∈ s.live, o.page = page → o.addr + o.size ≤ s.alct.freep
  handed : ∀ h ∈ s.handed, ¬ SlabAlct.PointsInto h.2 h.1

variable {s s' : Slab} {page size : ℕ} {o : SlabObj}

theorem getCnt_eq {addr : ℕ} (haligned : page % pageSize = 0) (hle : page ≤ addr)
    (hlt : addr < page + pageSize) : SlabAlct.getCnt addr = page := by
  simp only [SlabAlct.getCnt, roundDown, pageSize] at *
  omega

theorem apart_of_pages {o o' : SlabObj} {page page' : ℕ} (haligned : page % pageSize = 0)
    (haligned' : page' % pageSize = 0) (hne : page ≠ page') (ho : o.Within page) (ho' : o'.Within page') :
    o.Apart o' := by
  simp only [SlabObj.Within, SlabObj.Apart, SlabAlct.uintSize, pageSize] at *
  omega

theorem inv_initial (h : s.Initial) : s.Inv := by
  obtain ⟨hfreep, hpages, hlive, hhanded⟩ := h
  refine ⟨?_, ?_, ?_, ?_, ?_, ?_, .inl hfreep, ?_⟩ <;> simp [hpages, hlive, hhanded]

theorem Inv.nlive_eq_zero (h : s.Inv) (hpage : page ∉ s.pages) : nlive s.live page = 0 := by
  refine List.countP_eq_zero.mpr fun o ho ↦ ?_
  simp only [decide_eq_true_eq]
  rintro rfl
  exact hpage (h.within o ho).1

theorem Inv.nlive_le (h : s.Inv) (page : ℕ) : nlive s.live page ≤ pageSize := by
  rw [nlive, countP_eq_length_filter, ← length_map (fun o ↦ o.addr - page)]
  have hin : ∀ o ∈ s.live.filter (fun o ↦ o.page = page), 0 < o.size ∧ page ≤ o.addr ∧
      o.addr + o.size ≤ page + pageSize := by
    intro o ho
    obtain ⟨hlive, hpage⟩ := List.mem_filter.mp ho
    obtain rfl : o.page = page := by simpa using hpage
    obtain ⟨-, hfirst, hlast⟩ := h.within o hlive
    exact ⟨h.pos o hlive, by omega, hlast⟩
  refine length_le_of_nodup (List.pairwise_map.mpr ?_) ?_
  · refine (h.apart.filter _).imp_of_mem fun {o o'} ho ho' hapart ↦ ?_
    have := hin o ho
    have := hin o' ho'
    simp only [SlabObj.Apart] at hapart
    omega
  · intro x hx
    obtain ⟨o, ho, rfl⟩ := List.mem_map.mp hx
    have := hin o ho
    omega

theorem nlive_pos (ho : o ∈ s.live) : 0 < nlive s.live o.page :=
  List.countP_pos_iff.mpr ⟨o, ho, by simp⟩

theorem nlive_erase (ho : o ∈ s.live) (page : ℕ) :
    nlive s.live page = nlive (s.live.erase o) page + if o.page = page then 1 else 0 := by
  rw [nlive, (perm_cons_erase ho).countP_eq, countP_cons]
  simp [nlive]

/-! ### `slab_alloc` -/

theorem Inv.beginPage (h : s.Inv) (haligned : page % pageSize = 0) (hlt : page < addressSpace)
    (hfresh : page ∉ s.pages) : Inv { s with alct := s.alct.beginPage page, pages := page :: s.pages } := by
  have hfreep : wordAdd page SlabAlct.uintSize = page + SlabAlct.uintSize := by
    refine wordAdd_of_lt ?_
    simp only [SlabAlct.uintSize, pageSize, addressSpace] at *
    omega
  refine ⟨h.nodup.cons hfresh, ?_, h.pos, h.apart, fun o ho ↦ ?_, ?_, .inr ⟨page, by simp, ?_⟩, h.handed⟩
  · simpa [haligned, hlt] using h.aligned
  · grind [h.within]
  · intro page' hpage'
    by_cases heq : page' = page
    · subst heq
      simpa [SlabAlct.beginPage] using (h.nlive_eq_zero hfresh).symm
    · simpa [SlabAlct.beginPage, heq] using h.counted page' ((List.mem_cons.mp hpage').resolve_left heq)
  grind [SlabAlct.beginPage, SlabAlct.uintSize, pageSize, h.within]

theorem Inv.cut (h : s.Inv) (hpage : page ∈ s.pages) (hfirst : page + SlabAlct.uintSize ≤ s.alct.freep)
    (hbelow : ∀ o ∈ s.live, o.page = page → o.addr + o.size ≤ s.alct.freep) (hpos : 0 < size)
    (hfits : s.alct.freep + size < page + pageSize) :
    Inv { s with alct := s.alct.cut size, live := ⟨s.alct.freep, size⟩ :: s.live } := by
  obtain ⟨haligned, hlt⟩ := h.aligned page hpage
  have hcnt : SlabAlct.getCnt s.alct.freep = page := getCnt_eq haligned (by omega) (by omega)
  have hnew : (⟨s.alct.freep, size⟩ : SlabObj).page = page := hcnt
  have hwithin : (⟨s.alct.freep, size⟩ : SlabObj).Within page := ⟨hfirst, by simpa using hfits.le⟩
  have hfreep : wordAdd s.alct.freep size = s.alct.freep + size := by
    refine wordAdd_of_lt ?_
    simp only [pageSize, addressSpace] at *
    omega
  have hnlive := h.nlive_le page
  have hwrap : wordAdd (s.alct.cnt page) 1 = nlive s.live page + 1 := by
    grind [h.counted, wordAdd_of_lt, pageSize, addressSpace]
  refine ⟨h.nodup, h.aligned, ?_, ?_, ?_, fun page' hpage' ↦ ?_, .inr ⟨page, hpage, ?_⟩, h.handed⟩
  · simpa [hpos] using h.pos
  · refine List.pairwise_cons.mpr ⟨fun o ho ↦ ?_, h.apart⟩
    obtain ⟨hpage', hwithin'⟩ := h.within o ho
    by_cases heq : o.page = page
    · exact .inr (hbelow o ho heq)
    · exact apart_of_pages haligned (h.aligned _ hpage').1 (Ne.symm heq) hwithin hwithin'
  · grind [h.within]
  · by_cases heq : page' = page
    · subst heq
      simp [SlabAlct.cut, hcnt, hwrap, nlive, hnew]
    · simpa [SlabAlct.cut, hcnt, heq, nlive, hnew, Ne.symm heq] using h.counted page' hpage'
  grind [SlabAlct.cut]

theorem fits_of_not_needsPage {freep : ℕ} (haligned : page % pageSize = 0)
    (hfirst : page + SlabAlct.uintSize ≤ freep) (hlast : freep < page + pageSize)
    (hsize : size ≤ szSlabAllocMax) (h : wordAdd freep size < roundUp freep pageSize) :
    freep + size < page + pageSize := by
  simp only [SlabAlct.uintSize, szSlabAllocMax, wordAdd, roundUp, pageSize, addressSpace] at *
  omega

/-- What a call is for: `slab_alloc` gives an object, or returns the error of `alloc` and changes nothing;
`slab_free` takes the object back, and hands its page to `free` exactly if no object of the page is left. -/
def Lawful (s : Slab) (err : Errno) (s' : Slab) : SlabCall → Prop
  | .alloc size answer => err = .ok ∧ (∃ addr, s'.live = ⟨addr, size⟩ :: s.live) ∧ s'.handed = s.handed ∨
      answer = .error err ∧ s' = s
  | .free o _ => s'.live = s.live.erase o ∧ s'.handed = s.handed ++
      if nlive s'.live o.page = 0 then [(o.page, s'.alct.freep)] else []

def Used (s : Slab) : Prop := ∀ page ∈ s.pages, 0 < nlive s.live page

theorem call_alloc_cut {answer : Except Errno ℕ} (hneeds : ¬ s.alct.NeedsPage size) : s.call (.alloc size answer) =
      .ok (.ok, { s with alct := s.alct.cut size, live := ⟨s.alct.freep, size⟩ :: s.live }) := by
  rw [call, slabAlloc, if_neg hneeds]
  rfl

theorem call_alloc_begin (hneeds : s.alct.NeedsPage size) : s.call (.alloc size (.ok page)) = .ok (.ok, { s with
        alct := (s.alct.beginPage page).cut size
        pages := page :: s.pages
        live := ⟨(s.alct.beginPage page).freep, size⟩ :: s.live }) := by
  rw [call, slabAlloc, if_pos hneeds]
  rfl

theorem call_alloc_error {err : Errno} (hneeds : s.alct.NeedsPage size) :
    s.call (.alloc size (.error err)) = .ok (err, s) := by
  rw [call, slabAlloc, if_pos hneeds]
  cases err <;> rfl

theorem alloc_keeps {answer : Except Errno ℕ} (h : s.Inv) (hused : s.Used)
    (hallowed : s.Allowed (.alloc size answer)) :
    ∃ err s', s.call (.alloc size answer) = .ok (err, s') ∧ s'.Inv ∧ s'.Used ∧
      s.Lawful err s' (.alloc size answer) := by
  by_cases hneeds : s.alct.NeedsPage size
  · cases answer with
    | error err => exact ⟨err, s, call_alloc_error hneeds, h, hused, .inr ⟨rfl, rfl⟩⟩
    | ok page =>
      obtain ⟨hpos, hsize, haligned, hlt, hfresh⟩ := hallowed
      have hfreep : (s.alct.beginPage page).freep = page + SlabAlct.uintSize := by
        refine wordAdd_of_lt ?_
        simp only [SlabAlct.uintSize, pageSize, addressSpace] at *
        omega
      have hfits : (s.alct.beginPage page).freep + size < page + pageSize := by
        rw [hfreep]
        simp only [SlabAlct.uintSize, szSlabAllocMax, pageSize] at *
        omega
      have hnone : ∀ o ∈ s.live, o.page = page → o.addr + o.size ≤ (s.alct.beginPage page).freep :=
        fun o ho hpage ↦ absurd (hpage ▸ (h.within o ho).1) hfresh
      refine ⟨_, _, call_alloc_begin hneeds, ?_, ?_, .inl ⟨rfl, ⟨_, rfl⟩, rfl⟩⟩
      · exact (h.beginPage haligned hlt hfresh).cut (mem_cons_self ..) hfreep.ge hnone hpos hfits
      · intro page' hpage'
        rw [nlive, countP_cons]
        obtain rfl | hpage' := List.mem_cons.mp hpage'
        · have hnew : SlabAlct.getCnt (s.alct.beginPage page').freep = page' :=
            getCnt_eq haligned (by omega) (by omega)
          simp [SlabObj.page, hnew]
        · exact Nat.add_pos_left (hused page' hpage') _
  · refine ⟨_, _, call_alloc_cut hneeds, ?_⟩
    obtain ⟨hfreep, hroom⟩ := not_or.mp hneeds
    obtain ⟨hpos, hsize⟩ : 0 < size ∧ size ≤ szSlabAllocMax := by cases answer <;> exact ⟨hallowed.1, hallowed.2.1⟩
    obtain ⟨page, hpage, hfirst, hlast, hbelow⟩ := h.current.resolve_left hfreep
    have haligned := (h.aligned page hpage).1
    have hfits := fits_of_not_needsPage haligned hfirst hlast hsize (Nat.lt_of_not_ge hroom)
    refine ⟨h.cut hpage hfirst hbelow hpos hfits, fun page' hpage' ↦ ?_, .inl ⟨rfl, ⟨_, rfl⟩, rfl⟩⟩
    rw [nlive, countP_cons]
    exact Nat.add_pos_left (hused page' hpage') _

/-! ### `slab_free` -/

theorem Inv.release (h : s.Inv) (ho : o ∈ s.live) :
    Inv { s with alct := s.alct.release o.addr, live := s.live.erase o } := by
  have hsub : ∀ o' ∈ s.live.erase o, o' ∈ s.live := fun o' ho' ↦ mem_of_mem_erase ho'
  refine ⟨h.nodup, h.aligned, fun o' ho' ↦ h.pos o' (hsub o' ho'), h.apart.sublist erase_sublist,
    fun o' ho' ↦ h.within o' (hsub o' ho'), fun page hpage ↦ ?_, ?_, h.handed⟩
  · have hcounted := h.counted page hpage
    have herase := nlive_erase ho page
    have hle := h.nlive_le page
    by_cases heq : o.page = page
    · obtain rfl := heq
      rw [if_pos rfl] at herase
      have hcnt : (s.alct.release o.addr).cnt o.page =
          (s.alct.cnt o.page + addressSpace - 1) % addressSpace := Function.update_self ..
      simp only [hcnt, hcounted, addressSpace, pageSize] at hle ⊢
      omega
    · rw [if_neg heq, Nat.add_zero] at herase
      have hcnt : (s.alct.release o.addr).cnt page = s.alct.cnt page :=
        Function.update_of_ne (Ne.symm heq) ..
      rw [hcnt, hcounted, herase]
  · obtain hfreep | ⟨page, hpage, hfirst, hlast, hbelow⟩ := h.current
    · exact .inl hfreep
    · exact .inr ⟨page, hpage, hfirst, hlast, fun o' ho' ↦ hbelow o' (hsub o' ho')⟩

theorem Inv.handPage (h : s.Inv) (hpage : page ∈ s.pages) (hempty : nlive s.live page = 0) : Inv { s with
      alct := s.alct.forget page
      pages := s.pages.erase page
      handed := s.handed ++ [(page, (s.alct.forget page).freep)] } := by
  have hmem : ∀ {page'}, page' ∈ s.pages.erase page ↔ page' ≠ page ∧ page' ∈ s.pages := h.nodup.mem_erase_iff
  have haligned := (h.aligned page hpage).1
  refine ⟨h.nodup.erase page, fun page' hpage' ↦ h.aligned page' (hmem.mp hpage').2, h.pos, h.apart,
    fun o ho ↦ ?_, fun page' hpage' ↦ h.counted page' (hmem.mp hpage').2, ?_, fun handed hhanded ↦ ?_⟩
  · grind [h.within, nlive_pos]
  · simp only [SlabAlct.forget]
    split_ifs with hcurrent
    · exact .inl rfl
    · obtain hfreep | ⟨page', hpage', hfirst, hlast, hbelow⟩ := h.current
      · exact .inl hfreep
      · refine .inr ⟨page', hmem.mpr ⟨?_, hpage'⟩, hfirst, hlast, hbelow⟩
        rintro rfl
        exact hcurrent (getCnt_eq haligned (by omega) hlast)
  · obtain hhanded | hhanded := List.mem_append.mp hhanded
    · exact h.handed handed hhanded
    · obtain rfl := List.mem_singleton.mp hhanded
      rintro ⟨hne, hfirst, hlast⟩
      simp only [SlabAlct.forget] at hne hfirst hlast
      split_ifs at hne hfirst hlast with hcurrent
      · exact hne rfl
      · exact hcurrent (getCnt_eq haligned hfirst hlast)

theorem free_keeps {answer : Errno} (h : s.Inv) (hused : s.Used) (ho : o ∈ s.live) :
    ∃ err s', s.call (.free o answer) = .ok (err, s') ∧ s'.Inv ∧ s'.Used ∧ s.Lawful err s' (.free o answer) := by
  have hreleased := h.release ho
  have hpage := (h.within o ho).1
  have hcnt : (s.alct.release o.addr).cnt (SlabAlct.getCnt o.addr) = nlive (s.live.erase o) o.page :=
    hreleased.counted o.page hpage
  simp only [call, slabFree, hcnt]
  -- the other pages have as many objects as before
  have hother : ∀ page ∈ s.pages, page ≠ o.page → 0 < nlive (s.live.erase o) page := by
    intro page hpage' hne
    have herase := nlive_erase ho page
    rw [if_neg (Ne.symm hne), Nat.add_zero] at herase
    exact herase ▸ hused page hpage'
  split_ifs with hempty
  · refine ⟨_, _, rfl, hreleased.handPage hpage hempty, fun page hpage' ↦ ?_, rfl, ?_⟩
    · obtain ⟨hne, hpage'⟩ := h.nodup.mem_erase_iff.mp hpage'
      exact hother page hpage' hne
    · exact congrArg (s.handed ++ ·) (if_pos hempty).symm
  · refine ⟨_, _, rfl, hreleased, fun page hpage' ↦ ?_, rfl, ?_⟩
    · by_cases heq : page = o.page
      · subst heq
        exact Nat.pos_of_ne_zero hempty
      · exact hother page hpage' heq
    · exact (congrArg (s.handed ++ ·) (if_neg hempty)).trans (append_nil _) |>.symm

/-! ### Runs -/

theorem call_keeps {c : SlabCall} (h : s.Inv) (hused : s.Used) (hallowed : s.Allowed c) :
    ∃ err s', s.call c = .ok (err, s') ∧ s'.Inv ∧ s'.Used ∧ s.Lawful err s' c := by
  cases c with
  | alloc size answer => exact alloc_keeps h hused hallowed
  | free o answer => exact free_keeps h hused hallowed

theorem inv_reached (h : s.Reached) : s.Inv ∧ s.Used := by
  refine System.Run.invariant (P := fun s ↦ s.Inv ∧ s.Used) (fun s hinit ↦ ⟨inv_initial hinit, ?_⟩) ?_ h
  · obtain ⟨-, hpages, -⟩ := hinit
    simp [Used, hpages]
  · intro s c s' hs hallowed hnext
    obtain ⟨err, s'', hcall, hinv, hused, -⟩ := call_keeps hs.1 hs.2 hallowed
    obtain rfl : s'' = s' := by simpa [system, System.ofNext, next, hcall] using hnext
    exact ⟨hinv, hused⟩

/-- Every state that the slab allocator reaches is sound, and every call in it returns and does what it is
for. -/
theorem slab_contract (h : s.Reached) :
    s.Sound ∧ ∀ c, s.Allowed c → ∃ err s', s.call c = .ok (err, s') ∧ s.Lawful err s' c := by
  obtain ⟨hinv, hused⟩ := inv_reached h
  refine ⟨⟨hinv.apart, hinv.within, hinv.counted, hused, hinv.handed⟩, fun c hallowed ↦ ?_⟩
  grind [call_keeps]

/-- A slab after `slab_init`. -/
def exampleStart : Slab := ⟨⟨0, fun _ ↦ 0⟩, [], [], []⟩

/-- Two objects of 256 bytes in a page, of which the first is freed again. -/
def exampleRun : Result Slab :=
  [.alloc 256 (.ok 0x5000), .alloc 256 (.error .nomem), .free ⟨0x5004, 256⟩ .ok].foldlM
    (System.guarded next Allowed .unset) exampleStart

def exampleView : Result (List SlabObj × ℕ) := do
  let s ← exampleRun
  return (s.live, s.alct.cnt 0x5000)

theorem exampleView_eq : exampleView = .ok ([⟨0x5104, 256⟩], 1) := by decide +kernel

/-- The other object may be freed, and this empties the page. -/
theorem slab_contract_example : ∃ s : Slab, s.live = [⟨0x5104, 256⟩] ∧ s.Sound ∧
    ∃ err s', s.call (.free ⟨0x5104, 256⟩ .ok) = .ok (err, s') ∧ s.Lawful err s' (.free ⟨0x5104, 256⟩ .ok) := by
  obtain ⟨s, hrun, hview⟩ := bind_eq_ok.mp exampleView_eq
  obtain ⟨hlive, -⟩ := ok_pair_inj hview
  have hreached : s.Reached := System.run_of_foldlM (.init ⟨rfl, rfl, rfl, rfl⟩) hrun
  obtain ⟨hsound, hcall⟩ := slab_contract hreached
  refine ⟨s, hlive, hsound, hcall _ ?_⟩
  simp [Allowed, hlive]

end Slab

end Lanthorn
