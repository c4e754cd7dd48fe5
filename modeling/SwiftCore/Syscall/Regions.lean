/-
Anonymous regions (core/syscall/process.rs: brk, mmap, munmap; core/syscall/privileged.rs: alloc_shared_pages,
map_physical_pages, ipc_send_pages, without an address to put the pages at).

All these calls place what they map at `heap_end`, the one cursor of a process. `World` records beside the system the
pages of the regions that were returned and not unmapped, and the pages that `brk` mapped up to the break.
- `brk_spec`, `mmap_spec`, `allocSharedPages_spec`, `mapPhysPagesIntoTarget_spec`: how each call moves the cursor.
- `apart_of_careful_run`: as long as `brk` does not go back to a region, the heap is set up before there is one, and no
  region is placed at a break whose page `brk` has mapped, every region is apart from the others and from the heap.
- `region_returned_twice`: after a `brk` below it, a region is handed out again.
-/
import SwiftCore.Syscall.FrameSharing
import Mathlib.Order.CompletePartialOrder

namespace SwiftCore.Syscall.Regions

open Run Fallible Mem Memory Function
open FrameSharing (withProcess_same orInvalid_spec requireServicePrivilege_spec requireAllowed_spec)

/-! ## Calls, and what they return -/

inductive Call
  | brk (hash pid addr : ℕ)
  | mmap (hash pid length : ℕ)
  | munmap (pid addr length : ℕ)
  | allocSharedPages (pid count out outLen : ℕ)
  | mapPhysicalPages (pid targetTid : ℕ) (physPages : List ℕ)
  | ipcSendPages (pid destTid : ℕ) (physPages : List ℕ) (sent : Bool)

variable (T : Mapper)

def perform : Call → S ℕ
  | .brk hash pid addr => brk T hash pid addr
  | .mmap hash pid length => mmap T hash pid 0 length
  | .munmap pid addr length => do munmap T pid addr length; pure 0
  | .allocSharedPages pid count out outLen => allocSharedPages pid count out outLen 0
  | .mapPhysicalPages pid tid pages => mapPhysicalPages pid tid pages 0
  | .ipcSendPages pid tid pages sent => do ipcSendPages pid tid pages sent; pure 0

/-- a part of the address space of a process -/
structure Region where
  pid : ℕ
  start : ℕ
  len : ℕ
deriving DecidableEq, Repr

/-- the numbers of its pages -/
def Region.pages (r : Region) : Set ℕ := { q | r.start ≤ q * 4096 ∧ q * 4096 < r.start + r.len }

/-- the value of a call that returns one -/
def value {α : Type} (x : S α) (s : Sys) : Option α :=
  match x s with
  | (.ok a, _) => some a
  | _ => none

/-- the region that a call returns; the one of `ipc_send_pages` is in the message that it sends -/
def returned (s : Sys) : Call → Option Region
  | .brk .. | .munmap .. => none
  | .mmap hash pid length => do
    let v ← value (mmap T hash pid 0 length) s
    let size ← pageAlignUp length
    pure ⟨pid, v, size⟩
  | .allocSharedPages pid count out outLen => do
    let v ← value (allocSharedPages pid count out outLen 0) s
    pure ⟨pid, v, count * 0x1000⟩
  | .mapPhysicalPages pid tid pages => do
    let v ← value (mapPhysicalPages pid tid pages 0) s
    let target ← s.processOf tid
    pure ⟨target, v, pages.length * 0x1000⟩
  | .ipcSendPages pid tid pages sent => do
    let _ ← value (ipcSendPages pid tid pages sent) s
    let v ← value (mapPhysPagesIntoTarget tid pages 0) s
    let target ← s.processOf tid
    pure ⟨target, v, pages.length * 0x1000⟩

/-- the pages that a growing `brk` maps: from `start_page` to the page of the new break -/
def brkPages (s : Sys) (hash pid addr : ℕ) : Set ℕ :=
  { q | ∃ p pt start, (s.processes pid).map (openHeap hash 0x40000000 0x8000) = some p ∧ p.pageTable = some pt ∧
    p.heapEnd < addr ∧
    pageAlignUp (if isUserRangeMappedInTable s.machine pt p.heapEnd 1 then saturatingAdd p.heapEnd 1 else p.heapEnd) =
      some start ∧
    start ≤ q * 4096 ∧ q * 4096 ≤ addr }

/-! ## Runs -/

/-- the system, with the pages of the regions that are in use and the pages that `brk` mapped up to the break -/
structure World where
  sys : Sys
  regions : ℕ → Set ℕ
  heap : ℕ → Set ℕ

variable (w : World)

/-- the heap after a `brk`: what is behind the break is given up -/
def heapAfter (hash pid addr : ℕ) : Set ℕ :=
  { q | (q ∈ w.heap pid ∨ q ∈ brkPages w.sys hash pid addr) ∧ q * 4096 ≤ addr }

/-- the pages that `munmap` takes away -/
def unmapped (addr length : ℕ) : Set ℕ := { q | firstPage addr ≤ q * 4096 ∧ q * 4096 < addr + length }

/-- the pages in use after a call that returned -/
def account : Call → World
  | .brk hash pid addr =>
    if addr = 0 then w else { w with heap := update w.heap pid (heapAfter w hash pid addr) }
  | .munmap pid addr length =>
    { w with regions := update w.regions pid (w.regions pid \ unmapped addr length)
             heap := update w.heap pid (w.heap pid \ unmapped addr length) }
  | c =>
    match returned T w.sys c with
    | none => w
    | some r => { w with regions := update w.regions r.pid (w.regions r.pid ∪ r.pages) }

/-- a call that does not return leaves everything as it is -/
def step (c : Call) : World :=
  match perform T c w.sys with
  | (.ok _, s) => { account T w c with sys := s }
  | (.err _, s) => { w with sys := s }
  | (.stuck, _) => w

/-- the region that the call returns is apart from the regions in use and from the heap -/
def Apart (c : Call) : Prop :=
  ∀ r, returned T w.sys c = some r → Disjoint r.pages (w.regions r.pid) ∧ Disjoint r.pages (w.heap r.pid)

/-- the break is not at the start of a page that `brk` has mapped -/
def BreakFree (pid : ℕ) (p : Process) : Prop := p.heapEnd % 4096 = 0 → p.heapEnd / 4096 ∉ w.heap pid

/-- the condition: `brk` does not go back to a region; the heap is set up before there is a region; no region is placed at
a break whose page is mapped -/
def Careful : Call → Prop
  | .brk _ pid addr => ∀ p, w.sys.processes pid = some p → (p.heapStart = 0 → w.regions pid = ∅) ∧
      (addr ≠ 0 → p.heapStart ≤ addr → ∀ q ∈ w.regions pid, q * 4096 < addr)
  | .mmap _ pid _ => ∀ p, w.sys.processes pid = some p → (p.heapStart = 0 → w.regions pid = ∅) ∧ BreakFree w pid p
  | .munmap .. => True
  | .allocSharedPages pid .. => ∀ p, w.sys.processes pid = some p → BreakFree w pid p
  | .mapPhysicalPages _ tid _ | .ipcSendPages _ tid .. => ∀ pid p, w.sys.processOf tid = some pid →
      w.sys.processes pid = some p → BreakFree w pid p

/-! ## How the calls move the cursor -/

section Same

variable {I : Sys → Prop}

theorem paging_same {α : Type} (hI : ∀ {s σ}, I s → I { s with machine := σ }) (e : Errno) (x : K α) :
    Spec I (paging e x) (fun _ => I) I := by
  intro s hs
  unfold paging
  rcases x s.machine with ⟨_ | _ | _, σ⟩
  exacts [hI hs, hI hs, trivial]

theorem pageTableOf_same (p : Process) (e : Errno) : Spec I (pageTableOf p e) (fun _ => I) I := by
  unfold pageTableOf
  cases p.pageTable with
  | none => exact Spec.fail fun _ hs => hs
  | some a => exact Spec.pure fun _ hs => hs

theorem copyToUser_same (hI : ∀ {s σ}, I s → I { s with machine := σ }) (pid dst : ℕ) (src : List UInt8) :
    Spec I (copyToUser pid dst src) (fun _ => I) I := by
  unfold copyToUser
  refine Spec.ite (fun _ => Spec.pure fun _ hs => hs) fun _ => ?_
  refine Spec.bind ((withProcess_same pid _).ok fun _ _ hs => hs.1) fun p => ?_
  refine Spec.bind (pageTableOf_same p _) fun pt => ?_
  exact Spec.guard (fun _ hs => hs) fun _ => paging_same hI _ _

end Same

/-- the processes are these -/
def Have (P : ℕ → Option Process) (s : Sys) : Prop := s.processes = P

section Cursor

variable {P : ℕ → Option Process} {T : Mapper}

theorem have_withProcess (pid : ℕ) (e : Errno) :
    Spec (Have P) (withProcess pid e) (fun p s => Have P s ∧ P pid = some p) (Have P) :=
  Spec.ok (withProcess_same pid e) (fun _ _ hs => ⟨hs.1, hs.1 ▸ hs.2⟩)

theorem have_setProcess (pid : ℕ) (p : Process) (E : Sys → Prop) :
    Spec (Have P) (M.modify fun s => setProcess s pid p : S PUnit)
      (fun _ => Have (update P pid (some p))) E :=
  Spec.modify fun s hs => by rw [← show s.processes = P from hs]; rfl

theorem le_pageAlignUp {a v : ℕ} (h : pageAlignUp a = some v) : a ≤ v := by
  unfold pageAlignUp at h
  split_ifs at h
  cases h
  omega

/-- after an error: nothing happened, or only the heap was set up -/
def Opened (P : ℕ → Option Process) (pid hash floor maxPages : ℕ) (s : Sys) : Prop :=
  Have P s ∨ ∃ p₀, P pid = some p₀ ∧ Have (update P pid (some (openHeap hash floor maxPages p₀))) s

/-- `brk` leaves the break alone, sets it up, or moves it to the address -/
theorem brk_spec (hash pid addr : ℕ) : Spec (Have P) (brk T hash pid addr)
    (fun _ s => ∃ p₀ p, P pid = some p₀ ∧ p = openHeap hash 0x40000000 0x8000 p₀ ∧
      (addr = 0 ∧ Have (update P pid (some p)) s ∨
        addr ≠ 0 ∧ p.heapStart ≤ addr ∧ Have (update P pid (some { p with heapEnd := addr })) s))
    (Opened P pid hash 0x40000000 0x8000) := by
  unfold brk
  refine Spec.bind (Spec.err (have_withProcess pid _) fun _ hs => .inl hs) fun p₀ => Spec.assume fun hp => ?_
  refine Spec.bind (have_setProcess pid (openHeap hash 0x40000000 0x8000 p₀) _) fun _ => ?_
  generalize hopen : openHeap hash 0x40000000 0x8000 p₀ = p
  have herr : ∀ s, Have (update P pid (some p)) s → Opened P pid hash 0x40000000 0x8000 s :=
    fun s hs => .inr ⟨p₀, hp, hopen.symm ▸ hs⟩
  have hmove : p.heapStart ≤ addr → addr ≠ 0 → ∀ s, Have (update (update P pid (some p)) pid
      (some { p with heapEnd := addr })) s → ∃ q₀ q, P pid = some q₀ ∧ q = openHeap hash 0x40000000 0x8000 q₀ ∧
      (addr = 0 ∧ Have (update P pid (some q)) s ∨
        addr ≠ 0 ∧ q.heapStart ≤ addr ∧ Have (update P pid (some { q with heapEnd := addr })) s) := by
    intro hle hne s hs
    rw [update_idem] at hs
    exact ⟨p₀, p, hp, hopen.symm, .inr ⟨hne, hle, hs⟩⟩
  refine Spec.ite (fun h0 => Spec.pure fun s hs => ⟨p₀, p, hp, hopen.symm, .inl ⟨h0, hs⟩⟩) fun hne => ?_
  refine Spec.guard herr fun hge => ?_
  refine Spec.guard herr fun _ => ?_
  refine Spec.ite (fun _ => Spec.bind (have_setProcess pid _ _) fun _ => Spec.pure (hmove (not_lt.1 hge) hne)) fun _ => ?_
  refine Spec.bind (Spec.err (pageTableOf_same p _) herr) fun pt => ?_
  refine Spec.bind (Spec.gets (Q := fun _ => Have (update P pid (some p))) fun _ hs => hs) fun mapped => ?_
  refine Spec.bind (Spec.err (orInvalid_spec _) herr) fun startPage => Spec.assume fun _ => ?_
  refine Spec.bind (Spec.err (orInvalid_spec _) herr) fun endPage => Spec.assume fun _ => ?_
  refine Spec.bind (Q := fun _ => Have (update P pid (some p)))
    (Spec.when (fun _ => Spec.err (paging_same (fun h => h) _ _) herr) fun _ _ hs => hs) fun _ => ?_
  exact Spec.bind (have_setProcess pid _ _) fun _ => Spec.pure (hmove (not_lt.1 hge) hne)

/-- `mmap` returns what is behind the break and moves the break behind it -/
theorem mmap_spec (hash pid length : ℕ) : Spec (Have P) (mmap T hash pid 0 length)
    (fun v s => ∃ p₀ p size, P pid = some p₀ ∧ p = openHeap hash 0x50000000 0x10000 p₀ ∧ pageAlignUp length = some size ∧
      pageAlignUp p.heapEnd = some v ∧ Have (update P pid (some { p with heapEnd := v + size })) s)
    (Opened P pid hash 0x50000000 0x10000) := by
  unfold mmap
  refine Spec.guard (fun _ hs => .inl hs) fun _ => ?_
  refine Spec.bind (Spec.err (orInvalid_spec _) fun _ hs => .inl hs) fun size => Spec.assume fun hsize => ?_
  have hlen := (Option.filter_eq_some_iff.1 hsize).1
  refine Spec.bind (Spec.err (have_withProcess pid _) fun _ hs => .inl hs) fun p₀ => Spec.assume fun hp => ?_
  refine Spec.bind (have_setProcess pid (openHeap hash 0x50000000 0x10000 p₀) _) fun _ => ?_
  generalize hopen : openHeap hash 0x50000000 0x10000 p₀ = p
  have herr : ∀ s, Have (update P pid (some p)) s → Opened P pid hash 0x50000000 0x10000 s :=
    fun s hs => .inr ⟨p₀, hp, hopen.symm ▸ hs⟩
  refine Spec.guard herr fun _ => ?_
  refine Spec.bind (Spec.err (orInvalid_spec _) herr) fun v => Spec.assume fun hv => ?_
  refine Spec.guard herr fun _ => ?_
  refine Spec.bind (Spec.err (pageTableOf_same p _) herr) fun pt => ?_
  refine Spec.bind (Spec.err (paging_same (fun h => h) _ _) herr) fun _ => ?_
  refine Spec.bind (Q := fun _ => Have (update P pid (some { p with heapEnd := v + size })))
    (Spec.when (fun _ => Spec.guard herr fun _ => ?_) fun h => absurd rfl h) fun _ => ?_
  · refine Spec.ok (have_setProcess pid { p with heapEnd := v + size } _) (fun _ s hs => ?_)
    rwa [update_idem] at hs
  · exact Spec.pure fun s hs => ⟨p₀, p, size, hp, hopen.symm, hlen, by simpa using hv, hs⟩

/-- `span` bytes behind the break of process `pid` are taken, from address `v` on -/
def Taken (P : ℕ → Option Process) (pid base span v : ℕ) (s : Sys) : Prop :=
  ∃ p, P pid = some p ∧ pageAlignUp (if p.heapEnd = 0 then base else p.heapEnd) = some v ∧
    Have (update P pid (some { p with heapEnd := v + span })) s

/-- the same, with what `giveBack` needs -/
def Held (P : ℕ → Option Process) (pid base span : ℕ) (place : Place) (s : Sys) : Prop :=
  ∃ p, P pid = some p ∧ pageAlignUp (if p.heapEnd = 0 then base else p.heapEnd) = some place.virt ∧
    place.heap = some (p.heapEnd, place.virt + span) ∧
    Have (update P pid (some { p with heapEnd := place.virt + span })) s

/-- the pages go to the process of a thread -/
def Sent (s : Sys) (tid : ℕ) (pages : List ℕ) (v : ℕ) (t : Sys) : Prop :=
  ∃ target, s.processOf tid = some target ∧ Taken s.processes target 0x600000000000 (pages.length * 0x1000) v t

theorem reserve_spec (pid base span : ℕ) :
    Spec (Have P) (reserve pid base 0 span) (Held P pid base span) (Have P) := by
  unfold reserve
  rw [if_neg (by simp)]
  refine Spec.bind (have_withProcess pid _) fun p => Spec.assume fun hp => ?_
  refine Spec.bind (orInvalid_spec _) fun v => Spec.assume fun hv => ?_
  refine Spec.bind (orInvalid_spec _) fun newEnd => Spec.assume fun hend => ?_
  split_ifs at hend
  cases hend
  refine Spec.bind (pageTableOf_same p _) fun pt => ?_
  refine Spec.bind (have_setProcess pid _ _) fun _ => Spec.pure fun s hs => ?_
  exact ⟨p, hp, hv, rfl, hs⟩

theorem giveBack_spec (pid base span : ℕ) (place : Place) (E : Sys → Prop) :
    Spec (Held P pid base span place) (giveBack pid place) (fun _ => Have P) E := by
  refine Spec.modify fun s ⟨p, hp, _, hheap, hs⟩ => ?_
  have hs : s.processes = _ := hs
  rw [hheap, hs, update_self]
  show Have P (if place.virt + span = place.virt + span then _ else _)
  rw [if_pos rfl]
  show update s.processes pid _ = P
  rw [hs, update_idem, show ({ p with heapEnd := p.heapEnd } : Process) = p from rfl, ← hp,
    update_eq_self]

/-- pages that are sent to a thread go behind the break of its process, which moves behind them -/
theorem mapPhysPagesIntoTarget_spec (tid : ℕ) (pages : List ℕ) (s : Sys) :
    Spec (· = s) (mapPhysPagesIntoTarget tid pages 0)
      (Sent s tid pages) (Have s.processes) := by
  unfold mapPhysPagesIntoTarget sharedPageLimit
  refine Spec.gets_bind ?_
  refine Spec.guard (fun t ht => ht ▸ rfl) fun _ => ?_
  refine Spec.bind (Spec.err (requireAllowed_spec pages) fun t ht => ht ▸ rfl) fun _ => Spec.gets_bind ?_
  cases htid : s.processOf tid with
  | none => exact Spec.fail fun t ht => ht ▸ rfl
  | some target =>
    refine Spec.guard (fun t ht => ht ▸ rfl) fun _ => ?_
    refine Spec.here (P := Have s.processes) ?_ rfl
    refine Spec.bind (reserve_spec target _ _) fun place => ?_
    refine Spec.bind (Spec.onError (paging_same (fun h => h) _ _) (giveBack_spec target _ _ place _)) fun _ => ?_
    exact Spec.pure fun u ⟨p, hp, hv, _, hu⟩ => ⟨target, htid, p, hp, hv, hu⟩

/-- the same for `alloc_shared_pages`, in the process that calls it -/
theorem allocSharedPages_spec (pid count out outLen : ℕ) :
    Spec (Have P) (allocSharedPages pid count out outLen 0)
      (fun v => Taken P pid 0x700000000000 (count * 0x1000) v) (Have P) := by
  unfold allocSharedPages sharedPageLimit
  refine Spec.bind (requireServicePrivilege_spec pid) fun _ => ?_
  refine Spec.bind (Spec.gets (Q := fun _ => Have P) fun _ hs => hs) fun limit => ?_
  refine Spec.guard (fun _ hs => hs) fun _ => ?_
  refine Spec.guard (fun _ hs => hs) fun _ => ?_
  refine Spec.bind (paging_same (fun h => h) _ _) fun frames => ?_
  refine Spec.onError ?_ (paging_same (fun h => h) _ _)
  refine Spec.guard (fun _ hs => hs) fun _ => ?_
  refine Spec.bind (reserve_spec pid _ _) fun place => ?_
  refine Spec.bind (Q := fun _ => Held P pid 0x700000000000 (count * 0x1000) place)
    (Spec.onError ?_ (giveBack_spec pid 0x700000000000 (count * 0x1000) place _)) fun _ =>
      Spec.pure fun s ⟨p, hp, hv, _, hs⟩ => ⟨p, hp, hv, hs⟩
  refine Spec.bind (paging_same (fun h => h) _ _) fun _ => Spec.when (fun _ => ?_) fun _ _ hs => hs
  exact Spec.onError (copyToUser_same (fun h => h) _ _ _) (paging_same (fun h => h) _ _)

/-- `map_physical_pages` and `ipc_send_pages` move the cursor as the call inside them does -/
theorem mapPhysicalPages_spec (pid tid : ℕ) (pages : List ℕ) (s : Sys) :
    Spec (· = s) (mapPhysicalPages pid tid pages 0)
      (Sent s tid pages) (Have s.processes) :=
  Spec.bind (Spec.err (requireServicePrivilege_spec pid) fun _ ht => ht ▸ rfl) fun _ =>
    mapPhysPagesIntoTarget_spec tid pages s

theorem ipcSendPages_spec (pid tid : ℕ) (pages : List ℕ) (sent : Bool) (s : Sys) :
    Spec (· = s) (ipcSendPages pid tid pages sent)
      (fun _ t => ∃ v, mapPhysPagesIntoTarget tid pages 0 s = (.ok v, t))
      (fun t => Have s.processes t ∨ ∃ v, mapPhysPagesIntoTarget tid pages 0 s = (.ok v, t)) := by
  have hsame : ∀ t, t = s → Have s.processes t ∨ ∃ v, mapPhysPagesIntoTarget tid pages 0 s = (.ok v, t) :=
    fun t ht => .inl (ht ▸ rfl)
  refine Spec.bind (Spec.err (requireServicePrivilege_spec pid) hsame) fun _ => ?_
  refine Spec.guard hsame fun _ => ?_
  refine Spec.bind (Q := fun v t => mapPhysPagesIntoTarget tid pages 0 s = (.ok v, t)) ?_ fun v => ?_
  · rintro t rfl
    have h := mapPhysPagesIntoTarget_spec tid pages t t rfl
    rcases hx : mapPhysPagesIntoTarget tid pages 0 t with ⟨_ | _ | _, u⟩
    · exact rfl
    · rw [hx] at h
      exact .inl h
    · trivial
  · exact Spec.ite (fun _ => Spec.pure fun t ht => ⟨v, ht⟩) fun _ => Spec.fail fun t ht => .inr ⟨v, ht⟩

theorem munmap_spec (pid addr length : ℕ) :
    Spec (Have P) (munmap T pid addr length) (fun _ => Have P) (Have P) := by
  have hfail : ∀ s, Have P s → Have P s := fun _ hs => hs
  unfold munmap
  refine Spec.guard hfail fun _ => Spec.guard hfail fun _ => ?_
  refine Spec.bind (orInvalid_spec _) fun unmapEnd => Spec.assume fun _ => ?_
  refine Spec.guard hfail fun _ => Spec.guard hfail fun _ => ?_
  refine Spec.bind (have_withProcess pid _) fun p => Spec.assume fun _ => ?_
  exact Spec.bind (pageTableOf_same p _) fun pt => paging_same (fun h => h) _ _

end Cursor

/-! ## The invariant -/

/-- regions are below the break, the heap reaches to it, and there is no heap before it is set up -/
structure Fits (p : Process) (R H : Set ℕ) : Prop where
  below : ∀ q ∈ R, q * 4096 < p.heapEnd
  reaches : ∀ q ∈ H, q * 4096 ≤ p.heapEnd
  unset : p.heapStart = 0 → H = ∅

def Inv : Prop := ∀ pid p, w.sys.processes pid = some p → Fits p (w.regions pid) (w.heap pid)

namespace Fits

variable {p : Process} {R H : Set ℕ}

theorem advance (h : Fits p R H) {e : ℕ} (he : p.heapEnd ≤ e) : Fits { p with heapEnd := e } R H where
  below q hq := lt_of_lt_of_le (h.below q hq) he
  reaches q hq := le_trans (h.reaches q hq) he
  unset := h.unset

theorem openHeap (h : Fits p R H) (hR : p.heapStart = 0 → R = ∅) (hash floor maxPages : ℕ) :
    Fits (openHeap hash floor maxPages p) R H := by
  unfold Memory.openHeap
  split_ifs with h0
  · rw [hR h0, h.unset h0]
    exact ⟨nofun, nofun, fun _ => rfl⟩
  · exact h

/-- a region behind the break -/
theorem add (h : Fits p R H) {r : Region} (hr : p.heapEnd ≤ r.start) :
    Fits { p with heapEnd := r.start + r.len } (R ∪ r.pages) H where
  below q hq := by
    rcases hq with hq | ⟨_, hq⟩
    · exact lt_of_lt_of_le (h.below q hq) (le_trans hr (Nat.le_add_right _ _))
    · exact hq
  reaches q hq := le_trans (h.reaches q hq) (le_trans hr (Nat.le_add_right _ _))
  unset := h.unset

theorem sdiff (h : Fits p R H) (gone : Set ℕ) : Fits p (R \ gone) (H \ gone) where
  below q hq := h.below q hq.1
  reaches q hq := h.reaches q hq.1
  unset h0 := by rw [h.unset h0, Set.empty_sdiff]

end Fits

theorem openHeap_heapStart (hash : ℕ) {floor : ℕ} (hfloor : 0 < floor) (maxPages : ℕ) (p : Process) :
    (openHeap hash floor maxPages p).heapStart ≠ 0 := by
  unfold openHeap
  split_ifs with h0
  · show randomizedHeapBase hash floor maxPages ≠ 0
    unfold randomizedHeapBase saturatingAdd
    omega
  · exact h0

variable {pid hash length tid : ℕ} {s t : Sys} {c : Call} {pages : List ℕ}

/-- the world after a call that changed one process -/
theorem inv_update {w w' : World} (h : Inv w) {p : Process}
    (hP : w'.sys.processes = update w.sys.processes pid (some p))
    (hR : ∀ k, k ≠ pid → w'.regions k = w.regions k) (hH : ∀ k, k ≠ pid → w'.heap k = w.heap k)
    (hp : Fits p (w'.regions pid) (w'.heap pid)) : Inv w' := by
  intro k q hq
  rw [hP, update_apply] at hq
  split_ifs at hq with hk
  · cases hq
    exact hk ▸ hp
  · rw [hR k hk, hH k hk]
    exact h k q hq

/-- a call takes region `r` behind the break -/
def Placing (r : Region) (P : ℕ → Option Process) : Prop :=
  ∃ p, Fits p (w.regions r.pid) (w.heap r.pid) ∧ BreakFree w r.pid p ∧ p.heapEnd ≤ r.start ∧
    P = update w.sys.processes r.pid (some { p with heapEnd := r.start + r.len })

theorem Placing.apart {w : World} {r : Region} {P : ℕ → Option Process} (h : Placing w r P) :
    Disjoint r.pages (w.regions r.pid) ∧ Disjoint r.pages (w.heap r.pid) := by
  obtain ⟨p, hfits, hfree, hle, -⟩ := h
  constructor
  · rw [Set.disjoint_left]
    intro q hq hin
    exact absurd (hfits.below q hin) (not_lt.2 (le_trans hle hq.1))
  · rw [Set.disjoint_left]
    intro q hq hin
    -- a page of both starts at the break
    have hbreak : p.heapEnd = q * 4096 := le_antisymm (le_trans hle hq.1) (hfits.reaches q hin)
    refine hfree ?_ ?_
    · rw [hbreak, Nat.mul_mod_left]
    · rw [hbreak, Nat.mul_div_cancel _ (by decide)]
      exact hin

/-- the region is in use afterwards -/
theorem Placing.inv {w : World} (hw : Inv w) {r : Region} (h : Placing w r s.processes) :
    Inv { w with sys := s, regions := update w.regions r.pid (w.regions r.pid ∪ r.pages) } := by
  obtain ⟨p, hfits, -, hle, hP⟩ := h
  refine inv_update hw hP (fun k hk => update_of_ne hk _ _) (fun _ _ => rfl) ?_
  show Fits _ (update w.regions r.pid _ r.pid) _
  rw [update_self]
  exact hfits.add hle

/-- the region is lost -/
theorem Placing.inv_lost {w : World} (hw : Inv w) {r : Region} (h : Placing w r s.processes) :
    Inv { w with sys := s } := by
  obtain ⟨p, hfits, -, hle, hP⟩ := h
  exact inv_update hw hP (fun _ _ => rfl) (fun _ _ => rfl) (hfits.advance (le_trans hle (Nat.le_add_right _ _)))

theorem inv_same {w : World} (hw : Inv w) (h : Have w.sys.processes s) : Inv { w with sys := s } := by
  intro pid p hp
  exact hw pid p (h ▸ hp)

theorem value_eq_some {α : Type} {x : S α} {a : α} : value x s = some a ↔ ∃ t, x s = (.ok a, t) := by
  unfold value
  rcases x s with ⟨_ | _ | _, t⟩ <;> simp

/-- what a `Spec` says of a call that returned -/
theorem of_ok {α : Type} {I : Sys → Prop} {x : S α} {Q : α → Sys → Prop} {E : Sys → Prop} (hx : Spec I x Q E)
    {a : α} (hs : I s) (h : x s = (.ok a, t)) : Q a t := by
  have := hx s hs
  rwa [h] at this

theorem of_err {α : Type} {I : Sys → Prop} {x : S α} {Q : α → Sys → Prop} {E : Sys → Prop} (hx : Spec I x Q E)
    {e : Errno} (hs : I s) (h : x s = (.err e, t)) : E t := by
  have := hx s hs
  rwa [h] at this

/-- pages taken behind the break are a placed region -/
theorem placing_of_taken {w : World} (hw : Inv w) {base span v : ℕ} (h : Taken w.sys.processes pid base span v t)
    (hfree : ∀ p, w.sys.processes pid = some p → BreakFree w pid p) : Placing w ⟨pid, v, span⟩ t.processes := by
  obtain ⟨p, hp, hv, ht⟩ := h
  refine ⟨p, hw pid p hp, hfree p hp, ?_, ht⟩
  split_ifs at hv with h0
  · rw [h0]
    exact Nat.zero_le _
  · exact le_pageAlignUp hv

theorem account_of_returned {T : Mapper} {w : World} {r : Region} (hr : returned T w.sys c = some r) :
    account T w c = { w with regions := update w.regions r.pid (w.regions r.pid ∪ r.pages) } := by
  cases c with
  | brk | munmap => cases hr
  | mmap | allocSharedPages | mapPhysicalPages | ipcSendPages => simp only [account, hr]

section Steps

variable {T : Mapper} {w : World} (hw : Inv w)

include hw

theorem inv_returned {r : Region} (hr : returned T w.sys c = some r) (hplacing : Placing w r s.processes) :
    Inv { account T w c with sys := s } := by
  rw [account_of_returned hr]
  exact hplacing.inv hw

theorem placing_mmap (hc : Careful w (.mmap hash pid length)) {v : ℕ}
    (h : mmap T hash pid 0 length w.sys = (.ok v, t)) :
    ∃ size, pageAlignUp length = some size ∧ Placing w ⟨pid, v, size⟩ t.processes := by
  obtain ⟨p₀, p, size, hp, rfl, hsize, hv, ht⟩ := of_ok (mmap_spec hash pid length) rfl h
  obtain ⟨hunset, hfree⟩ := hc p₀ hp
  refine ⟨size, hsize, _, (hw pid p₀ hp).openHeap hunset hash 0x50000000 0x10000, ?_, le_pageAlignUp hv, ht⟩
  unfold openHeap
  split_ifs with h0
  · intro _
    show _ ∉ w.heap pid
    rw [(hw pid p₀ hp).unset h0]
    exact Set.notMem_empty _
  · exact hfree

theorem placing_allocSharedPages {count out outLen : ℕ} (hc : Careful w (.allocSharedPages pid count out outLen))
    {v : ℕ} (h : allocSharedPages pid count out outLen 0 w.sys = (.ok v, t)) :
    Placing w ⟨pid, v, count * 0x1000⟩ t.processes :=
  placing_of_taken hw (of_ok (allocSharedPages_spec pid count out outLen) rfl h) hc

theorem placing_mapPhysPages (hc : ∀ pid p, w.sys.processOf tid = some pid →
    w.sys.processes pid = some p → BreakFree w pid p) {v : ℕ}
(h : Sent w.sys tid pages v t) :
    ∃ target, w.sys.processOf tid = some target ∧ Placing w ⟨target, v, pages.length * 0x1000⟩ t.processes := by
  obtain ⟨target, htid, htaken⟩ := h
  exact ⟨target, htid, placing_of_taken hw htaken fun p hp => hc target p htid hp⟩

/-- what a call returns is apart from what is in use -/
theorem apart_of_careful (hc : Careful w c) : Apart T w c := by
  intro r hr
  cases c with
  | brk | munmap => cases hr
  | mmap hash pid length =>
    obtain ⟨v, hv, hr⟩ := Option.bind_eq_some_iff.1 hr
    obtain ⟨t, ht⟩ := value_eq_some.1 hv
    obtain ⟨size, hsize, hplacing⟩ := placing_mmap hw hc ht
    rw [hsize] at hr
    cases hr
    exact hplacing.apart
  | allocSharedPages pid count out outLen =>
    obtain ⟨v, hv, hr⟩ := Option.bind_eq_some_iff.1 hr
    obtain ⟨t, ht⟩ := value_eq_some.1 hv
    cases hr
    exact (placing_allocSharedPages hw hc ht).apart
  | mapPhysicalPages pid tid pages =>
    obtain ⟨v, hv, hr⟩ := Option.bind_eq_some_iff.1 hr
    obtain ⟨t, ht⟩ := value_eq_some.1 hv
    obtain ⟨target, htid, hplacing⟩ := placing_mapPhysPages hw hc (of_ok (mapPhysicalPages_spec pid tid pages _) rfl ht)
    rw [htid] at hr
    cases hr
    exact hplacing.apart
  | ipcSendPages pid tid pages sent =>
    obtain ⟨_, -, hr⟩ := Option.bind_eq_some_iff.1 hr
    obtain ⟨v, hv, hr⟩ := Option.bind_eq_some_iff.1 hr
    obtain ⟨t, ht⟩ := value_eq_some.1 hv
    obtain ⟨target, htid, hplacing⟩ := placing_mapPhysPages hw hc (of_ok (mapPhysPagesIntoTarget_spec tid pages _) rfl ht)
    rw [htid] at hr
    cases hr
    exact hplacing.apart

/-- a heap that is set up leaves everything in its place -/
theorem inv_opened {floor maxPages : ℕ} {p₀ : Process} (hp : w.sys.processes pid = some p₀)
    (hunset : p₀.heapStart = 0 → w.regions pid = ∅)
    (hs : Have (update w.sys.processes pid (some (openHeap hash floor maxPages p₀))) s) :
    Inv { w with sys := s } :=
  inv_update hw hs (fun _ _ => rfl) (fun _ _ => rfl) ((hw pid p₀ hp).openHeap hunset hash floor maxPages)

theorem inv_brk {addr : ℕ} (hc : Careful w (.brk hash pid addr)) : Inv (step T w (.brk hash pid addr)) := by
  unfold step
  rcases hx : perform T (.brk hash pid addr) w.sys with ⟨_ | _ | _, s⟩
  · obtain ⟨p₀, p, hp, rfl, ⟨rfl, hs⟩ | ⟨hne, hle, hs⟩⟩ := of_ok (brk_spec hash pid addr) rfl hx
    · show Inv { account T w (.brk hash pid 0) with sys := s }
      rw [account, if_pos rfl]
      exact inv_opened hw hp (hc p₀ hp).1 hs
    · obtain ⟨hunset, hback⟩ := hc p₀ hp
      show Inv { account T w (.brk hash pid addr) with sys := s }
      rw [account, if_neg hne]
      refine inv_update hw hs (fun _ _ => rfl) (fun k hk => update_of_ne hk _ _) ?_
      show Fits _ _ (update w.heap pid _ pid)
      rw [update_self]
      refine ⟨fun q hq => ?_, fun q hq => hq.2, fun h0 => absurd h0 (openHeap_heapStart hash (by decide) _ p₀)⟩
      by_cases h0 : p₀.heapStart = 0
      · rw [show w.regions pid = ∅ from hunset h0] at hq
        exact absurd hq (Set.notMem_empty _)
      · unfold openHeap at hle
        rw [if_neg h0] at hle
        exact hback hne hle q hq
  · rcases of_err (brk_spec hash pid addr) rfl hx with hs | ⟨p₀, hp, hs⟩
    · exact inv_same hw hs
    · exact inv_opened hw hp (hc p₀ hp).1 hs
  · exact hw

theorem inv_mmap (hc : Careful w (.mmap hash pid length)) : Inv (step T w (.mmap hash pid length)) := by
  unfold step
  rcases hx : perform T (.mmap hash pid length) w.sys with ⟨v | _ | _, s⟩
  · obtain ⟨size, hsize, hplacing⟩ := placing_mmap hw hc hx
    have hv : value (mmap T hash pid 0 length) w.sys = some v := value_eq_some.2 ⟨s, hx⟩
    have hr : returned T w.sys (.mmap hash pid length) = some ⟨pid, v, size⟩ := by
      rw [returned, hv, hsize]
      rfl
    exact inv_returned hw hr hplacing
  · rcases of_err (mmap_spec hash pid length) rfl hx with hs | ⟨p₀, hp, hs⟩
    · exact inv_same hw hs
    · exact inv_opened hw hp (hc p₀ hp).1 hs
  · exact hw

theorem inv_munmap {addr : ℕ} : Inv (step T w (.munmap pid addr length)) := by
  have hspec : Spec (Have w.sys.processes) (perform T (.munmap pid addr length)) (fun _ => Have w.sys.processes)
      (Have w.sys.processes) := Spec.bind (munmap_spec pid addr length) fun _ => Spec.pure fun _ hs => hs
  unfold step
  rcases hx : perform T (.munmap pid addr length) w.sys with ⟨_ | _ | _, s⟩
  · have hs : s.processes = w.sys.processes := of_ok hspec rfl hx
    intro k p hp
    show Fits p (update w.regions pid _ k) (update w.heap pid _ k)
    by_cases hk : k = pid
    · subst hk
      rw [update_self, update_self]
      exact (hw k p (hs ▸ hp)).sdiff _
    · rw [update_of_ne hk, update_of_ne hk]
      exact hw k p (hs ▸ hp)
  · exact inv_same hw (of_err hspec rfl hx)
  · exact hw

theorem inv_allocSharedPages {count out outLen : ℕ} (hc : Careful w (.allocSharedPages pid count out outLen)) :
    Inv (step T w (.allocSharedPages pid count out outLen)) := by
  unfold step
  rcases hx : perform T (.allocSharedPages pid count out outLen) w.sys with ⟨v | _ | _, s⟩
  · have hv : value (allocSharedPages pid count out outLen 0) w.sys = some v := value_eq_some.2 ⟨s, hx⟩
    have hr : returned T w.sys (.allocSharedPages pid count out outLen) = some ⟨pid, v, count * 0x1000⟩ := by
      rw [returned, hv]
      rfl
    exact inv_returned hw hr (placing_allocSharedPages hw hc hx)
  · exact inv_same hw (of_err (allocSharedPages_spec pid count out outLen) rfl hx)
  · exact hw

theorem inv_mapPhysicalPages (hc : Careful w (.mapPhysicalPages pid tid pages)) :
    Inv (step T w (.mapPhysicalPages pid tid pages)) := by
  unfold step
  rcases hx : perform T (.mapPhysicalPages pid tid pages) w.sys with ⟨v | _ | _, s⟩
  · obtain ⟨target, htid, hplacing⟩ := placing_mapPhysPages hw hc (of_ok (mapPhysicalPages_spec pid tid pages _) rfl hx)
    have hv : value (mapPhysicalPages pid tid pages 0) w.sys = some v := value_eq_some.2 ⟨s, hx⟩
    have hr : returned T w.sys (.mapPhysicalPages pid tid pages) = some ⟨target, v, pages.length * 0x1000⟩ := by
      rw [returned, hv, htid]
      rfl
    exact inv_returned hw hr hplacing
  · exact inv_same hw (of_err (mapPhysicalPages_spec pid tid pages _) rfl hx)
  · exact hw

theorem inv_ipcSendPages {sent : Bool} (hc : Careful w (.ipcSendPages pid tid pages sent)) :
    Inv (step T w (.ipcSendPages pid tid pages sent)) := by
  have hplace : ∀ {v t}, mapPhysPagesIntoTarget tid pages 0 w.sys = (.ok v, t) → ∃ target,
      w.sys.processOf tid = some target ∧ Placing w ⟨target, v, pages.length * 0x1000⟩ t.processes := fun h =>
    placing_mapPhysPages hw hc (of_ok (mapPhysPagesIntoTarget_spec tid pages _) rfl h)
  rw [step, perform]
  rcases hx : ipcSendPages pid tid pages sent w.sys with ⟨u | _ | _, s⟩
  · obtain ⟨v, hmap⟩ := of_ok (ipcSendPages_spec pid tid pages sent _) rfl hx
    obtain ⟨target, htid, hplacing⟩ := hplace hmap
    have hr : returned T w.sys (.ipcSendPages pid tid pages sent) = some ⟨target, v, pages.length * 0x1000⟩ := by
      rw [returned, value_eq_some.2 ⟨s, hx⟩, value_eq_some.2 ⟨s, hmap⟩, htid]
      rfl
    rw [ok_bind hx]
    exact inv_returned hw hr hplacing
  · rw [err_bind hx]
    -- the pages stay mapped when the message is not taken
    rcases of_err (ipcSendPages_spec pid tid pages sent _) rfl hx with hs | ⟨v, hmap⟩
    · exact inv_same hw hs
    · obtain ⟨target, -, hplacing⟩ := hplace hmap
      exact hplacing.inv_lost hw
  · rw [stuck_bind hx]
    exact hw

/-- **Step.** A careful call keeps regions below the break. -/
theorem inv_step (hc : Careful w c) : Inv (step T w c) := by
  cases c with
  | brk => exact inv_brk hw hc
  | mmap => exact inv_mmap hw hc
  | munmap => exact inv_munmap hw
  | allocSharedPages => exact inv_allocSharedPages hw hc
  | mapPhysicalPages => exact inv_mapPhysicalPages hw hc
  | ipcSendPages => exact inv_ipcSendPages hw hc

end Steps

/-- nothing was mapped by these calls yet -/
def booted (s : Sys) : World := ⟨s, fun _ => ∅, fun _ => ∅⟩

theorem inv_booted (s : Sys) : Inv (booted s) := fun _ _ _ => ⟨nofun, nofun, fun _ => rfl⟩

/-- **Regions of careful runs.** From any system, whatever processes do: as long as `brk` does not go back to a region, the
heap is set up before there is a region, and no region is placed at a break whose page `brk` has mapped, every region that
a call returns is apart from the regions in use and from the heap. -/
theorem apart_of_careful_run (T : Mapper) (s : Sys) (calls : List Call) (hc : Along (step T) Careful (booted s) calls) :
    Along (step T) (Apart T) (booted s) calls :=
  along_of_inv (I := Inv) (fun _ _ hw hok => inv_step hw hok) (fun _ _ hw hok => apart_of_careful hw hok) _ _
    (inv_booted s) hc

open Mem.WriteXorExecute (bare)
open FrameSharing (threads)

theorem heap_allocSharedPages (pid count out outLen : ℕ) :
    (step T w (.allocSharedPages pid count out outLen)).heap = w.heap := by
  unfold step
  split
  · show (account T w (.allocSharedPages pid count out outLen)).heap = w.heap
    cases hr : returned T w.sys (.allocSharedPages pid count out outLen) <;> simp only [account, hr]
  · rfl
  · rfl

theorem regions_brk (hash pid addr : ℕ) :
    (step T w (.brk hash pid addr)).regions = w.regions := by
  unfold step
  split
  · show (account T w (.brk hash pid addr)).regions = w.regions
    rw [account]
    split_ifs <;> rfl
  · rfl
  · rfl

/-- the pages that `alloc_shared_pages` returns are in use -/
theorem pages_allocSharedPages {T : Mapper} {w : World} {count out outLen : ℕ} {r : Region}
    (hr : returned T w.sys (.allocSharedPages pid count out outLen) = some r) :
    r.pages ⊆ (step T w (.allocSharedPages pid count out outLen)).regions r.pid := by
  obtain ⟨v, hv, hr'⟩ := Option.bind_eq_some_iff.1 hr
  obtain ⟨t, ht⟩ := value_eq_some.1 hv
  have ht : perform T (.allocSharedPages pid count out outLen) w.sys = (.ok v, t) := ht
  rw [step, ht]
  show r.pages ⊆ (account T w _).regions r.pid
  rw [account_of_returned hr]
  show r.pages ⊆ update w.regions r.pid _ r.pid
  rw [update_self]
  exact Set.subset_union_right

/-- one service with an empty address space -/
def service : Sys := (run (FrameSharing.step walker) (FrameSharing.booted bare threads) [.spawn 1 .service]).sys

/-- the heap is set up, then two pages are allocated -/
def allocTwice : List Call := [.brk 0 1 0, .allocSharedPages 1 1 0 0, .allocSharedPages 1 1 0 0]

/-- the run is careful, and both calls return a page -/
theorem apart_of_allocTwice : Along (step walker) (Apart walker) (booted service) allocTwice ∧
    returned walker (run (step walker) (booted service) (allocTwice.take 1)).sys (.allocSharedPages 1 1 0 0) =
      some ⟨1, 0x40000000, 0x1000⟩ ∧
    returned walker (run (step walker) (booted service) (allocTwice.take 2)).sys (.allocSharedPages 1 1 0 0) =
      some ⟨1, 0x40001000, 0x1000⟩ := by
  refine ⟨apart_of_careful_run walker service allocTwice ⟨?_, ?_, ?_, trivial⟩, by decide +kernel, by decide +kernel⟩
  · intro p _
    exact ⟨fun _ => rfl, fun h => absurd rfl h⟩
  · intro p _ _ h
    exact h
  · intro p _ _ h
    rw [heap_allocSharedPages] at h
    exact h

/-- a page is allocated behind the break, the break is set back, and a page is allocated again -/
def allocBreakAlloc : List Call := [.brk 0 1 0, .allocSharedPages 1 1 0 0, .brk 0 1 0x40000000, .allocSharedPages 1 1 0 0]

/-- both calls return the page at 0x40000000 -/
theorem region_returned_twice : ¬ Along (step walker) (Apart walker) (booted service) allocBreakAlloc := by
  rintro ⟨-, -, -, h, -⟩
  have hfirst : returned walker (step walker (booted service) (.brk 0 1 0)).sys (.allocSharedPages 1 1 0 0) =
      some ⟨1, 0x40000000, 0x1000⟩ := by decide +kernel
  have hagain : returned walker (step walker (step walker (step walker (booted service) (.brk 0 1 0))
      (.allocSharedPages 1 1 0 0)) (.brk 0 1 0x40000000)).sys (.allocSharedPages 1 1 0 0) =
      some ⟨1, 0x40000000, 0x1000⟩ := by decide +kernel
  have hpage : 0x40000 ∈ (⟨1, 0x40000000, 0x1000⟩ : Region).pages := ⟨by decide, by decide⟩
  refine Set.disjoint_left.1 (h _ hagain).1 hpage ?_
  rw [regions_brk]
  exact pages_allocSharedPages hfirst hpage

end SwiftCore.Syscall.Regions
