/-
Receives from user code (`recv`, `recv_blocking` and their helpers in core/syscall/ipc.rs).

A receive takes the first message addressed to the caller out of the mailbox, maps the pages it carries into the caller's
address space and copies the bytes to the caller's buffer, in this order; each later step has error exits of its own.

`recv_blocking` is a loop of passes: a pass that finds no message registers the caller as waiter and sleeps, and other
threads run. `recvBlocking` takes what they do to the state, one function for each sleep, and returns at the latest in
the pass that is woken without a message.
- `recv_keeps_iff`: an error of `recv` leaves the mailbox, `heap_end` and the mappings as they were exactly when the
  first message addressed to the caller, if there is one, is not `Undeliverable`; for `recv_blocking` the same holds of
  the state in which its last pass starts.
- `short_buffer_loses_message`: a message to a thread whose buffer is not mapped is gone after `EFAULT`.
-/
import SwiftCore.Ipc.Invariant
import SwiftCore.Mem.Paging
import SwiftCore.Syscall.Types
import SwiftCore.Task.ThreadQueue

namespace SwiftCore.Ipc.Receive

open Fallible Mem Syscall SwiftCore.Task Mailbox Function

/-! ## State -/

/-- what a receive uses of a process -/
structure Process where
  heapEnd : ℕ
  pageTable : Option ℕ
deriving DecidableEq, Repr

structure Sys where
  queue : ThreadQueue
  boxes : ℕ → Mailbox
  /-- `current_thread_id` -/
  current : Option ℕ
  /-- the process of a thread -/
  processOf : ℕ → Option ℕ
  processes : ℕ → Option Process
  machine : Machine

/-- system calls: an `Errno`, or no return -/
abbrev S := M Sys Errno

/-- paging code inside a system call, its result as a value -/
def onMachine {α : Type} (x : K α) : S (Except Kernel α) := fun s =>
  match x s.machine with
  | (.ok a, machine) => (.ok (.ok a), { s with machine })
  | (.err e, machine) => (.ok (.error e), { s with machine })
  | (.stuck, machine) => (.stuck, { s with machine })

variable (s : Sys)

def setProcess (pid : ℕ) (p : Process) : Sys :=
  { s with processes := update s.processes pid (some p) }

def setBox (idx : ℕ) (mb : Mailbox) : Sys := { s with boxes := update s.boxes idx mb }

/-! ## Pages of a message -/

/-- `checked_add` -/
def checkedAdd (a b : ℕ) : S ℕ := if a + b < 2 ^ 64 then pure (a + b) else M.fail .EINVAL

/-- the loop over the pages: `some i` when page `i` could not be mapped -/
def mapPages (pageTable virtAddr : ℕ) : ℕ → List ℕ → K (Option ℕ)
  | _, [] => pure none
  | i, phys :: rest => do
    match ← M.attempt (mapPageInTable pageTable (virtAddr + i * 0x1000) phys true false) with
    | .error _ => pure (some i)
    | .ok _ => mapPages pageTable virtAddr (i + 1) rest

/-- the rollback: errors are ignored -/
def unmapPages (pageTable virtAddr n : ℕ) : K Unit :=
  M.forRange (fun j => do
    let _ ← M.attempt (unmapPageInTable pageTable (virtAddr + j * 0x1000))
    pure ()) n 0

/-- where the pages go: behind the heap, at 0x7100_0000_0000 at the earliest -/
def receiveBase (p : Process) : ℕ := if p.heapEnd < 0x710000000000 then 0x710000000000 else p.heapEnd

/-- the first page address at or after an address -/
def pageUp (a : ℕ) : ℕ := (a + 0xfff) - (a + 0xfff) % 4096

/-- the error exit of the loop: the pages mapped so far are unmapped and `heap_end` is put back unless someone moved it
meanwhile -/
def rollbackPages (pageTable virtAddr i pid oldEnd newEnd : ℕ) : S ℕ := do
  let _ ← onMachine (unmapPages pageTable virtAddr i)
  M.modify fun s =>
    match s.processes pid with
    | some q => if q.heapEnd = newEnd then setProcess s pid { q with heapEnd := oldEnd } else s
    | none => s
  M.fail .EFAULT

/-- `map_external_pages_for_receiver`; the hint is ignored -/
def mapExternalPagesForReceiver (receiverTid total extPagesCount : ℕ) (extPages : ℕ → ℕ) : S ℕ :=
  if extPagesCount = 0 ∨ extPagesCount > maxExtPages then M.fail .EINVAL
  else if total = 0 then M.fail .EINVAL
  else if total > extPagesCount * 0x1000 then M.fail .EINVAL
  else do
    let s ← M.gets id
    match s.processOf receiverTid with
    | none => M.fail .EINVAL
    | some pid =>
      match s.processes pid with
      | none => M.fail .EINVAL
      | some p =>
        let _ ← checkedAdd (receiveBase p) 0xfff
        let virtAddr := pageUp (receiveBase p)
        let newEnd ← checkedAdd virtAddr (extPagesCount * 0x1000)
        match p.pageTable with
        | none => M.fail .EINVAL
        | some pageTable =>
          M.modify fun s => setProcess s pid { p with heapEnd := newEnd }
          match ← onMachine (mapPages pageTable virtAddr 0 ((List.range extPagesCount).map extPages)) with
          | .ok none => pure virtAddr
          | .ok (some i) => rollbackPages pageTable virtAddr i pid p.heapEnd newEnd
          | .error _ => M.fail .EFAULT

/-- `u64::from_le_bytes` -/
def leValue (bytes : List UInt8) : ℕ := bytes.foldr (fun b v => b.toNat + 256 * v) 0

/-- `prepare_external_pages_for_user`: the length to copy and the buffer with the header of the mapping -/
def prepareExternalPagesForUser (receiverTid : ℕ) (recvBuf : List UInt8) (r : Received) : S (ℕ × List UInt8) :=
  if r.extPagesCount = 0 then pure (r.copyLen, recvBuf)
  else if r.copyLen < 16 ∨ recvBuf.length < 16 then M.fail .EFAULT
  else do
    let total := leValue ((recvBuf.drop 8).take 8)
    let mappedAddr ← mapExternalPagesForReceiver receiverTid total r.extPagesCount r.extPages
    pure (16, leBytes 8 mappedAddr ++ leBytes 8 total ++ recvBuf.drop 16)

/-! ## The receives -/

/-- `current_user_page_table` -/
def currentUserPageTable : Option ℕ := do
  let tid ← s.current
  let pid ← s.processOf tid
  let p ← s.processes pid
  p.pageTable

/-- `copy_to_user`: every error is `EFAULT` -/
def copyToUser (dstPtr : ℕ) (src : List UInt8) : S Unit :=
  if src = [] then pure ()
  else do
    let s ← M.gets id
    match currentUserPageTable s with
    | none => M.fail .EFAULT
    | some userPt =>
      if dstPtr = 0 then M.fail .EFAULT
      else
        match ← onMachine (copyToUserInTable userPt dstPtr src) with
        | .ok _ => pure ()
        | .error _ => M.fail .EFAULT

/-- the caller's id, mailbox and generation -/
def receiver : S Addr := fun s =>
  match s.current with
  | none => (.err .EINVAL, s)
  | some tid =>
    match s.queue.slotIndexAndGeneration tid with
    | none => (.err .EINVAL, s)
    | some (idx, generation) =>
      if maxThreads ≤ idx ∨ 65535 < idx then (.err .EINVAL, s) else (.ok ⟨tid, idx, generation⟩, s)

/-- the copy to the caller's buffer and the returned value: sender above, length below -/
def handOver (fromTid bufPtr copyLen : ℕ) (recvBuf : List UInt8) : S ℕ := do
  if 0 < copyLen ∧ bufPtr ≠ 0 then copyToUser bufPtr (recvBuf.take copyLen)
  pure (fromTid * 2 ^ 32 % 2 ^ 64 + copyLen)

/-- what both receives do with a message they took -/
def finish (tid bufPtr : ℕ) (recvBuf : List UInt8) (r : Received) : S ℕ := do
  let prepared ← prepareExternalPagesForUser tid recvBuf r
  handOver r.fromTid bufPtr prepared.1 prepared.2

/-- the bytes `pop_valid_for_receiver_copy` may fill -/
def window (maxLen : ℕ) : List UInt8 := List.replicate (min maxLen maxMsgSize) 0

/-- the receive buffer behind the window -/
def beyond (maxLen : ℕ) : List UInt8 := List.replicate (maxMsgSize - min maxLen maxMsgSize) 0

/-- `recv` -/
def recv (bufPtr maxLen : ℕ) : S ℕ := do
  let r ← receiver
  let s ← M.gets id
  match (s.boxes r.slot).popValidForReceiverCopy r (window maxLen) with
  | (none, _, mb) =>
    M.modify fun s => setBox s r.slot mb
    M.fail .EAGAIN
  | (some got, out, mb) =>
    M.modify fun s => setBox s r.slot mb
    finish r.tid bufPtr (out ++ beyond maxLen) got

/-- one pass of `recv_blocking`; `none` when it sleeps -/
def recvBlockingPass (r : Addr) (bufPtr maxLen : ℕ) (sleeps : Bool) : S (Option ℕ) := do
  let s ← M.gets id
  match (s.boxes r.slot).popValidForReceiverCopy r (window maxLen) with
  | (some got, out, mb) =>
    M.modify fun s => setBox s r.slot mb
    let v ← finish r.tid bufPtr (out ++ beyond maxLen) got
    pure (some v)
  | (none, _, mb) =>
    M.modify fun s => setBox s r.slot { mb with waiter := r.tid }
    if sleeps then pure none
    else do
      -- woken for another reason: the waiter is cleared and 0 returned
      M.modify fun s =>
        if (s.boxes r.slot).waiter = r.tid then setBox s r.slot { s.boxes r.slot with waiter := 0 } else s
      pure (some 0)

/-- the loop of `recv_blocking`, given what the other threads do during each of its sleeps -/
def recvBlockingLoop (r : Addr) (bufPtr maxLen : ℕ) : List (Sys → Sys) → S ℕ
  | [] => do
    match ← recvBlockingPass r bufPtr maxLen false with
    | some v => pure v
    | none => pure 0
  | others :: rest => do
    match ← recvBlockingPass r bufPtr maxLen true with
    | some v => pure v
    | none =>
      M.modify others
      recvBlockingLoop r bufPtr maxLen rest

/-- `recv_blocking` -/
def recvBlocking (bufPtr maxLen : ℕ) (others : List (Sys → Sys)) : S ℕ := do
  let r ← receiver
  recvBlockingLoop r bufPtr maxLen others

/-- the state in which the last pass of the loop starts -/
def lastPass (r : Addr) (bufPtr maxLen : ℕ) : List (Sys → Sys) → Sys → Sys
  | [], s => s
  | others :: rest, s =>
    match recvBlockingPass r bufPtr maxLen true s with
    | (.ok none, t) => lastPass r bufPtr maxLen rest (others t)
    | _ => s

/-! ## What cannot be delivered -/

/-- the buffer does not take the bytes -/
def CopyFails (bufPtr : ℕ) (bytes : List UInt8) : Prop :=
  currentUserPageTable s = none ∨
    ∃ userPt, currentUserPageTable s = some userPt ∧ Fails (copyToUserInTable userPt bufPtr bytes) s.machine

/-- the caller, its process and its page table, with room for `n` pages behind the heap -/
def Place (tid n pid : ℕ) (p : Process) (pageTable : ℕ) : Prop :=
  s.processOf tid = some pid ∧ s.processes pid = some p ∧ p.pageTable = some pageTable ∧
    receiveBase p + 0xfff < 2 ^ 64 ∧ pageUp (receiveBase p) + n * 0x1000 < 2 ^ 64

/-- the total length in the header of a message with pages -/
def pagesTotal (bytes : List UInt8) : ℕ := leValue ((bytes.drop 8).take 8)

/-- the pages of a message -/
def pageList (m : Message) : List ℕ := (List.range m.extPagesCount).map m.extPages

/-- a message that the caller cannot get with this buffer: bytes that the buffer does not take; or pages with a header
cut off or inconsistent, with no room behind the heap, that cannot be mapped, or whose new header the buffer does not
take -/
def Undeliverable (tid bufPtr maxLen : ℕ) (m : Message) : Prop :=
  let (got, bytes) := m.copyOut (window maxLen)
  if m.extPagesCount = 0 then
    0 < got.copyLen ∧ bufPtr ≠ 0 ∧ CopyFails s bufPtr (bytes.take got.copyLen)
  else
    got.copyLen < 16 ∨ m.extPagesCount > maxExtPages ∨ pagesTotal bytes = 0 ∨
    pagesTotal bytes > m.extPagesCount * 0x1000 ∨ (∀ pid p pt, ¬ Place s tid m.extPagesCount pid p pt) ∨
    ∃ pid p pt, Place s tid m.extPagesCount pid p pt ∧
      let virtAddr := pageUp (receiveBase p)
      ((∃ i σ, mapPages pt virtAddr 0 (pageList m) s.machine = (.ok (some i), σ)) ∨
      ∃ σ, mapPages pt virtAddr 0 (pageList m) s.machine = (.ok none, σ) ∧ bufPtr ≠ 0 ∧
        CopyFails { s with machine := σ } bufPtr (leBytes 8 virtAddr ++ leBytes 8 (pagesTotal bytes)))

/-! ## Where the steps after the pop fail -/

variable {α : Type} {t : Sys} {pt virt pid : ℕ} {r : Addr} {m : Message} {mb : Mailbox}

theorem onMachine_ok {x : K α} {s : Sys} {r : Except Kernel α} (h : onMachine x s = (.ok r, t)) :
    ∃ σ, t = { s with machine := σ } ∧ x s.machine = (match r with | .ok a => .ok a | .error e => .err e, σ) := by
  unfold onMachine at h
  rcases hx : x s.machine with ⟨a | e | _, σ⟩ <;> rw [hx] at h
  · obtain ⟨hr, rfl⟩ := Prod.mk.inj h
    cases hr
    exact ⟨σ, rfl, rfl⟩
  · obtain ⟨hr, rfl⟩ := Prod.mk.inj h
    cases hr
    exact ⟨σ, rfl, rfl⟩
  · cases (Prod.mk.inj h).1

theorem onMachine_fails (x : K α) (s : Sys) : ¬ Fails (onMachine x) s := by
  rintro ⟨e, t, h⟩
  unfold onMachine at h
  rcases hx : x s.machine with ⟨a | e | _, σ⟩ <;> rw [hx] at h <;> cases (Prod.mk.inj h).1

theorem copyToUser_fails {s : Sys} {bufPtr : ℕ} {src : List UInt8} (hsrc : src ≠ []) (hbuf : bufPtr ≠ 0) :
    Fails (copyToUser bufPtr src) s ↔ CopyFails s bufPtr src := by
  unfold copyToUser CopyFails
  rw [if_neg hsrc, fails_gets_bind]
  cases hpt : currentUserPageTable s with
  | none => simp [id, hpt]
  | some userPt =>
    simp only [id, hpt, if_neg hbuf, fails_bind, onMachine_fails, false_or, reduceCtorEq, Option.some.injEq,
      exists_eq_left']
    constructor
    · rintro ⟨r, t, hr, hf⟩
      obtain ⟨σ, rfl, hx⟩ := onMachine_ok hr
      cases r with
      | ok a => exact absurd hf (fails_pure _ _)
      | error e => exact ⟨e, σ, hx⟩
    · rintro ⟨e, σ, hx⟩
      exact ⟨.error e, { s with machine := σ }, by simp [onMachine, hx], fails_fail _ _⟩

theorem mapPageInTable_canonical {phys : ℕ} {w u : Bool} {σ τ : Machine}
    (h : mapPageInTable pt virt phys w u σ = (.ok (), τ)) : Canonical virt := by
  by_contra hc
  unfold mapPageInTable at h
  split_ifs at h
  · cases (Prod.mk.inj h).1
  · cases (Prod.mk.inj h).1
  · cases (Prod.mk.inj h).1
  · rw [bind_apply] at h
    unfold M.bind physicalMemoryOffset at h
    cases hoff : σ.physOffset with
    | none =>
      simp only [hoff] at h
      cases (Prod.mk.inj h).1
    | some off =>
      simp only [hoff] at h
      cases (Prod.mk.inj h).1

/-- the pages that `mapPages` mapped before it failed have proper addresses -/
theorem mapPages_canonical {i k : ℕ} {pages : List ℕ} {σ τ : Machine}
    (h : mapPages pt virt i pages σ = (.ok (some k), τ)) :
    ∀ j, i ≤ j → j < k → Canonical (virt + j * 0x1000) := by
  induction pages generalizing i σ with
  | nil => cases Outcome.ok.inj (Prod.mk.inj h).1
  | cons phys rest ih =>
    unfold mapPages at h
    rw [bind_apply] at h
    unfold M.bind M.attempt at h
    rcases hp : mapPageInTable pt (virt + i * 0x1000) phys true false σ with ⟨_ | _ | _, υ⟩ <;> rw [hp] at h
    · intro j hj hk
      rcases Nat.eq_or_lt_of_le hj with rfl | hj
      · exact mapPageInTable_canonical hp
      · exact ih h j hj hk
    · cases (Prod.mk.inj h).1
      intro j hj hk
      omega
    · cases (Prod.mk.inj h).1

theorem unmapPageInTable_returns (pt : ℕ) (hc : Canonical virt) (σ : Machine) :
    ∃ r τ, (M.attempt (unmapPageInTable pt virt) : K _) σ = (.ok r, τ) := by
  unfold M.attempt unmapPageInTable
  by_cases hpt : pt % 4096 = 0
  · by_cases hv : virt % 4096 = 0
    · simp only [hpt, hv, ne_eq, not_true_eq_false, if_false]
      rw [bind_apply]
      unfold M.bind physicalMemoryOffset
      cases hoff : σ.physOffset with
      | none => exact ⟨_, _, rfl⟩
      | some off =>
        simp only [hc, not_true_eq_false, if_false]
        rw [bind_apply]
        unfold M.bind M.gets
        dsimp only
        cases presentEntry σ.mem (pt / 4096) (p4Index virt) with
        | none => exact ⟨_, _, rfl⟩
        | some l4e =>
          dsimp only
          cases presentEntry σ.mem (frameOf l4e) (p3Index virt) with
          | none => exact ⟨_, _, rfl⟩
          | some l3e =>
            dsimp only
            cases presentEntry σ.mem (frameOf l3e) (p2Index virt) with
            | none => exact ⟨_, _, rfl⟩
            | some l2e => exact ⟨_, _, rfl⟩
    · rw [if_neg (by simpa using hpt), if_pos hv]
      exact ⟨_, _, rfl⟩
  · rw [if_pos hpt]
    exact ⟨_, _, rfl⟩

/-- the rollback of pages that were mapped returns -/
theorem unmapPages_returns (pt : ℕ) {n : ℕ} (hc : ∀ j, j < n → Canonical (virt + j * 0x1000)) (σ : Machine) :
    ∃ τ, unmapPages pt virt n σ = (.ok (), τ) := by
  unfold unmapPages
  suffices h : ∀ k i σ, (∀ j, i ≤ j → j < i + k → Canonical (virt + j * 0x1000)) →
      ∃ τ, M.forRange (fun j => do
        let _ ← M.attempt (unmapPageInTable pt (virt + j * 0x1000))
        (pure () : K Unit)) k i σ = (.ok (), τ) from h n 0 σ fun j _ hj => hc j (by omega)
  intro k
  induction k with
  | zero => exact fun i σ _ => ⟨σ, rfl⟩
  | succ k ih =>
    intro i σ hcan
    obtain ⟨r, τ, hr⟩ := unmapPageInTable_returns pt (hcan i (le_refl i) (by omega)) σ
    obtain ⟨υ, hυ⟩ := ih (i + 1) τ fun j hj hk => hcan j (by omega) (by omega)
    refine ⟨υ, ?_⟩
    unfold M.forRange
    simp only [bind_apply, M.bind, hr]
    exact hυ

theorem rollbackPages_fails {i oldEnd newEnd : ℕ} {s : Sys}
    (hc : ∀ j, j < i → Canonical (virt + j * 0x1000)) : Fails (rollbackPages pt virt i pid oldEnd newEnd) s := by
  obtain ⟨τ, hτ⟩ := unmapPages_returns pt hc s.machine
  unfold rollbackPages
  refine fails_bind.2 (.inr ⟨.ok (), { s with machine := τ }, by simp [onMachine, hτ], ?_⟩)
  exact fails_fail _ _

section MapExternal

variable {s : Sys} {tid total n : ℕ} {pages : ℕ → ℕ}

/-- the checks on the counts -/
theorem mapExternal_bad (h : n = 0 ∨ n > maxExtPages ∨ total = 0 ∨ total > n * 0x1000) :
    Fails (mapExternalPagesForReceiver tid total n pages) s := by
  unfold mapExternalPagesForReceiver
  split_ifs with h₁ h₂ h₃
  · exact fails_fail _ _
  · exact fails_fail _ _
  · exact fails_fail _ _
  · omega

/-- no process, no page table, or no room behind the heap -/
theorem mapExternal_noPlace (h : ∀ pid p pt, ¬ Place s tid n pid p pt) :
    Fails (mapExternalPagesForReceiver tid total n pages) s := by
  by_cases hbad : n = 0 ∨ n > maxExtPages ∨ total = 0 ∨ total > n * 0x1000
  · exact mapExternal_bad hbad
  · unfold mapExternalPagesForReceiver
    rw [if_neg (by omega), if_neg (by omega), if_neg (by omega), fails_gets_bind]
    simp only [id]
    cases hpid : s.processOf tid with
    | none => exact fails_fail _ _
    | some pid =>
      dsimp only
      cases hp : s.processes pid with
      | none => exact fails_fail _ _
      | some p =>
        dsimp only
        unfold checkedAdd
        by_cases hbase : receiveBase p + 0xfff < 2 ^ 64
        · rw [if_pos hbase, fails_pure_bind]
          split_ifs with hend
          · rw [fails_pure_bind]
            cases hpt : p.pageTable with
            | none => exact fails_fail _ _
            | some pt => exact absurd ⟨hpid, hp, hpt, hbase, hend⟩ (h pid p pt)
          · exact fails_bind.2 (.inl (fails_fail _ _))
        · rw [if_neg hbase]
          exact fails_bind.2 (.inl (fails_fail _ _))

/-- the state once `heap_end` is moved and the pages are mapped -/
def placed (s : Sys) (pid : ℕ) (p : Process) (n : ℕ) (σ : Machine) : Sys :=
  { setProcess s pid { p with heapEnd := pageUp (receiveBase p) + n * 0x1000 } with machine := σ }

/-- with a place for the pages, everything depends on the loop over them -/
theorem mapExternal_eval {p : Process} (hgood : ¬ (n = 0 ∨ n > maxExtPages ∨ total = 0 ∨ total > n * 0x1000))
    (h : Place s tid n pid p pt) :
    mapExternalPagesForReceiver tid total n pages s =
      match mapPages pt (pageUp (receiveBase p)) 0 ((List.range n).map pages) s.machine with
      | (.ok none, σ) => (.ok (pageUp (receiveBase p)), placed s pid p n σ)
      | (.ok (some i), σ) =>
        rollbackPages pt (pageUp (receiveBase p)) i pid p.heapEnd (pageUp (receiveBase p) + n * 0x1000) (placed s pid p n σ)
      | (.err _, σ) => (.err .EFAULT, placed s pid p n σ)
      | (.stuck, σ) => (.stuck, placed s pid p n σ) := by
  obtain ⟨hpid, hp, hpt, hbase, hend⟩ := h
  unfold mapExternalPagesForReceiver
  rw [if_neg (by omega), if_neg (by omega), if_neg (by omega)]
  have haddBase : checkedAdd (receiveBase p) 0xfff = pure (receiveBase p + 0xfff) := if_pos hbase
  have haddEnd : checkedAdd (pageUp (receiveBase p)) (n * 0x1000) = pure (pageUp (receiveBase p) + n * 0x1000) :=
    if_pos hend
  simp only [gets_bind_apply, id, hpid, hp, haddBase, haddEnd, hpt, pure_bind_apply, modify_bind_apply]
  unfold placed
  rw [bind_apply]
  unfold M.bind onMachine setProcess
  simp only [hpt]
  rcases mapPages pt (pageUp (receiveBase p)) 0 ((List.range n).map pages) s.machine with ⟨(_ | i) | _ | _, σ⟩ <;> rfl

end MapExternal

/-- moving `heap_end` changes no page table -/
theorem copyFails_placed {s : Sys} {tid n : ℕ} {p : Process} (h : Place s tid n pid p pt) (σ : Machine)
    (bufPtr : ℕ) (bytes : List UInt8) :
    CopyFails (placed s pid p n σ) bufPtr bytes ↔ CopyFails { s with machine := σ } bufPtr bytes := by
  have hpt : currentUserPageTable (placed s pid p n σ) = currentUserPageTable s := by
    unfold currentUserPageTable placed setProcess
    cases s.current with
    | none => rfl
    | some tid =>
      simp only [Option.bind_eq_bind, Option.bind_some]
      cases s.processOf tid with
      | none => rfl
      | some pid' =>
        simp only [Option.bind_some]
        rw [update_apply]
        split_ifs with hpid
        · rw [hpid, h.2.1]
          rfl
        · rfl
  unfold CopyFails
  rw [hpt]
  rfl

theorem length_leBytes (n v : ℕ) : (leBytes n v).length = n := by simp [leBytes]

/-- the buffer as the pop leaves it -/
theorem copyOut_bytes (m : Message) (maxLen : ℕ) :
    (m.copyOut (window maxLen)).2.length = min maxLen maxMsgSize ∧
      (m.copyOut (window maxLen)).1.copyLen ≤ min maxLen maxMsgSize := by
  unfold Message.copyOut window
  split_ifs with h
  · simp
  · simp

theorem copyOut_extPages (m : Message) (out : List UInt8) :
    (m.copyOut out).1.extPagesCount = m.extPagesCount ∧ (m.copyOut out).1.extPages = m.extPages := by
  unfold Message.copyOut
  split_ifs <;> exact ⟨rfl, rfl⟩

theorem handOver_fails {s : Sys} {fromTid bufPtr copyLen : ℕ} {buf : List UInt8} (hlen : copyLen ≤ buf.length) :
    Fails (handOver fromTid bufPtr copyLen buf) s ↔
      0 < copyLen ∧ bufPtr ≠ 0 ∧ CopyFails s bufPtr (buf.take copyLen) := by
  unfold handOver
  by_cases h : 0 < copyLen ∧ bufPtr ≠ 0
  · have hne : buf.take copyLen ≠ [] := by
      intro he
      have hzero := congrArg List.length he
      rw [List.length_take, List.length_nil] at hzero
      omega
    simp only [if_pos h, fails_bind, fails_pure, and_false, exists_false, or_false, copyToUser_fails hne h.2]
    simp [h]
  · simp only [if_neg h, fails_pure, false_iff]
    exact fun hc => h ⟨hc.1, hc.2.1⟩

theorem Place.unique {s : Sys} {tid n pid' pt' : ℕ} {p p' : Process} (h : Place s tid n pid p pt)
    (h' : Place s tid n pid' p' pt') : pid' = pid ∧ p' = p ∧ pt' = pt := by
  have hpid : pid' = pid := Option.some.inj (h'.1.symm.trans h.1)
  subst hpid
  have hp : p' = p := Option.some.inj (h'.2.1.symm.trans h.2.1)
  subst hp
  exact ⟨rfl, rfl, Option.some.inj (h'.2.2.1.symm.trans h.2.2.1)⟩

/-- the loop reports a page it cannot map as a value -/
theorem mapPages_fails (pt virt i : ℕ) (pages : List ℕ) (σ : Machine) : ¬ Fails (mapPages pt virt i pages) σ := by
  induction pages generalizing i σ with
  | nil => exact fails_pure _ _
  | cons phys rest ih =>
    unfold mapPages
    rw [fails_bind]
    rintro (⟨e, τ, h⟩ | ⟨r, τ, -, h⟩)
    · unfold M.attempt at h
      rcases hp : mapPageInTable pt (virt + i * 0x1000) phys true false σ with ⟨_ | _ | _, υ⟩ <;> rw [hp] at h <;>
        cases (Prod.mk.inj h).1
    · cases r with
      | ok _ => exact ih (i + 1) τ h
      | error _ => exact fails_pure _ _ h

/-- with a place for the pages a receive fails in the loop over them or in the copy of the new header -/
theorem pages_fail_iff {s : Sys} {tid total n : ℕ} {p : Process} {pages : ℕ → ℕ} (fromTid bufPtr : ℕ)
    (rest : List UInt8) (hgood : ¬ (n = 0 ∨ n > maxExtPages ∨ total = 0 ∨ total > n * 0x1000))
    (h : Place s tid n pid p pt) :
    Fails ((mapExternalPagesForReceiver tid total n pages >>= fun mappedAddr =>
        pure (16, leBytes 8 mappedAddr ++ leBytes 8 total ++ rest)) >>= fun prepared =>
      handOver fromTid bufPtr prepared.1 prepared.2) s ↔
    (∃ i σ, mapPages pt (pageUp (receiveBase p)) 0 ((List.range n).map pages) s.machine = (.ok (some i), σ)) ∨
    ∃ σ, mapPages pt (pageUp (receiveBase p)) 0 ((List.range n).map pages) s.machine = (.ok none, σ) ∧ bufPtr ≠ 0 ∧
      CopyFails { s with machine := σ } bufPtr (leBytes 8 (pageUp (receiveBase p)) ++ leBytes 8 total) := by
  have heval : mapExternalPagesForReceiver tid total n pages s = _ := mapExternal_eval hgood h
  rcases hmap : mapPages pt (pageUp (receiveBase p)) 0 ((List.range n).map pages) s.machine with ⟨(_ | i) | e | _, σ⟩
  · -- mapped: the header goes to the buffer
    have hok : mapExternalPagesForReceiver tid total n pages s =
        (.ok (pageUp (receiveBase p)), placed s pid p n σ) := heval.trans (by rw [hmap])
    have hlen : (leBytes 8 (pageUp (receiveBase p)) ++ leBytes 8 total).length = 16 := by simp [length_leBytes]
    have hprep : (mapExternalPagesForReceiver tid total n pages >>= fun mappedAddr =>
          (pure (16, leBytes 8 mappedAddr ++ leBytes 8 total ++ rest) : S (ℕ × List UInt8))) s =
        (.ok (16, leBytes 8 (pageUp (receiveBase p)) ++ leBytes 8 total ++ rest), placed s pid p n σ) :=
      ok_bind hok _
    have hrun : ∀ f : ℕ × List UInt8 → S ℕ, Fails ((mapExternalPagesForReceiver tid total n pages >>= fun mappedAddr =>
          pure (16, leBytes 8 mappedAddr ++ leBytes 8 total ++ rest)) >>= f) s ↔
        Fails (f (16, leBytes 8 (pageUp (receiveBase p)) ++ leBytes 8 total ++ rest)) (placed s pid p n σ) := fun f => by
      unfold Fails
      rw [ok_bind hprep f]
    rw [hrun, handOver_fails (by rw [List.length_append, hlen]; omega), List.take_left' hlen, copyFails_placed h]
    simp
  · -- a page that could not be mapped
    have hf : Fails (mapExternalPagesForReceiver tid total n pages) s := by
      unfold Fails
      rw [heval, hmap]
      exact rollbackPages_fails fun j hj => mapPages_canonical hmap j (Nat.zero_le j) hj
    exact iff_of_true (fails_bind.2 (.inl (fails_bind.2 (.inl hf)))) (.inl ⟨i, σ, rfl⟩)
  · exact (mapPages_fails _ _ _ _ _ ⟨e, σ, hmap⟩).elim
  · -- a panic: the call does not return
    have hstuck : mapExternalPagesForReceiver tid total n pages s = (.stuck, placed s pid p n σ) :=
      heval.trans (by rw [hmap])
    unfold Fails
    rw [stuck_bind (stuck_bind hstuck _)]
    simp

/-- **Exactly the undeliverable messages make the rest of a receive fail.** -/
theorem finish_fails_iff (tid bufPtr maxLen : ℕ) (m : Message) :
    Fails (finish tid bufPtr ((m.copyOut (window maxLen)).2 ++ beyond maxLen) (m.copyOut (window maxLen)).1) s ↔
      Undeliverable s tid bufPtr maxLen m := by
  obtain ⟨hlen, hcopy⟩ := copyOut_bytes m maxLen
  obtain ⟨hcount, hpages⟩ := copyOut_extPages m (window maxLen)
  unfold finish prepareExternalPagesForUser Undeliverable
  generalize m.copyOut (window maxLen) = res at *
  obtain ⟨got, bytes⟩ := res
  dsimp only at *
  rw [hcount, hpages]
  have hle : got.copyLen ≤ bytes.length := by omega
  by_cases hn : m.extPagesCount = 0
  · rw [if_pos hn, if_pos hn, fails_pure_bind, handOver_fails (by simp; omega), List.take_append_of_le_length hle]
  · rw [if_neg hn, if_neg hn]
    have hfull : (bytes ++ beyond maxLen).length = maxMsgSize := by
      simp [beyond, hlen]
    by_cases hshort : got.copyLen < 16
    · rw [if_pos (.inl hshort)]
      exact iff_of_true (fails_bind.2 (.inl (fails_fail _ _))) (.inl hshort)
    · have hmax : 16 ≤ maxMsgSize := by decide
      rw [if_neg (by rw [hfull]; omega)]
      have htotal : leValue (((bytes ++ beyond maxLen).drop 8).take 8) = pagesTotal bytes := by
        unfold pagesTotal
        rw [List.drop_append_of_le_length (by omega), List.take_append_of_le_length (by simp; omega)]
      rw [htotal]
      by_cases hbad : m.extPagesCount = 0 ∨ m.extPagesCount > maxExtPages ∨ pagesTotal bytes = 0 ∨
          pagesTotal bytes > m.extPagesCount * 0x1000
      · refine iff_of_true (fails_bind.2 (.inl (fails_bind.2 (.inl (mapExternal_bad hbad))))) ?_
        rcases hbad with h | h | h | h
        · exact absurd h hn
        · exact .inr (.inl h)
        · exact .inr (.inr (.inl h))
        · exact .inr (.inr (.inr (.inl h)))
      · by_cases hplace : ∀ pid p pt, ¬ Place s tid m.extPagesCount pid p pt
        · exact iff_of_true (fails_bind.2 (.inl (fails_bind.2 (.inl (mapExternal_noPlace hplace)))))
            (.inr (.inr (.inr (.inr (.inl hplace)))))
        · push Not at hplace
          obtain ⟨pid, p, pt, hpl⟩ := hplace
          rw [pages_fail_iff got.fromTid bufPtr _ hbad hpl]
          unfold pageList
          constructor
          · exact fun h => .inr (.inr (.inr (.inr (.inr ⟨pid, p, pt, hpl, h⟩))))
          · rintro (h | h | h | h | h | ⟨pid', p', pt', hpl', h⟩)
            · exact absurd h hshort
            · exact absurd (.inr (.inl h)) hbad
            · exact absurd (.inr (.inr (.inl h))) hbad
            · exact absurd (.inr (.inr (.inr h))) hbad
            · exact absurd hpl (h pid p pt)
            · obtain ⟨rfl, rfl, rfl⟩ := hpl.unique hpl'
              exact h

/-! ## The mailboxes -/

/-- the mailboxes are what their operations made of new ones -/
def MailboxesReached : Prop := ∀ i, ∃ ops, s.boxes i = Run.run Mailbox.step Mailbox.new ops

theorem MailboxesReached.inv {s : Sys} (h : MailboxesReached s) (i : ℕ) : (s.boxes i).Inv := by
  obtain ⟨ops, hops⟩ := h i
  rw [hops]
  exact Run.inv_run Mailbox.step_inv _ ops inv_new

theorem MailboxesReached.setBox {s : Sys} (h : MailboxesReached s) (idx : ℕ) (o : Mailbox.Op) :
    MailboxesReached (setBox s idx ((s.boxes idx).step o)) := by
  intro i
  by_cases hi : i = idx
  · subst hi
    obtain ⟨ops, hops⟩ := h i
    exact ⟨ops ++ [o], by simp [Receive.setBox, hops, Run.run_append]⟩
  · obtain ⟨ops, hops⟩ := h i
    exact ⟨ops, by simp [Receive.setBox, update_of_ne hi, hops]⟩

/-- code that leaves the mailboxes alone -/
structure KeepsBoxes {α : Type} (x : S α) : Prop where
  keeps : ∀ boxes, Spec (fun s => s.boxes = boxes) x (fun _ s => s.boxes = boxes) (fun s => s.boxes = boxes)

theorem KeepsBoxes.bind {β : Type} {x : S α} {f : α → S β} (hx : KeepsBoxes x) (hf : ∀ a, KeepsBoxes (f a)) :
    KeepsBoxes (x >>= f) := ⟨fun boxes => Spec.bind (hx.keeps boxes) fun a => (hf a).keeps boxes⟩

theorem KeepsBoxes.of_err {x : S α} (hx : KeepsBoxes x) {s : Sys} {e : Errno} (h : x s = (.err e, t)) :
    t.boxes = s.boxes := by
  have := hx.keeps s.boxes s rfl
  rw [h] at this
  exact this

theorem keepsBoxes_pure (a : α) : KeepsBoxes (pure a : S α) := ⟨fun _ => Spec.pure fun _ h => h⟩

theorem keepsBoxes_fail (e : Errno) : KeepsBoxes (M.fail e : S α) := ⟨fun _ => Spec.fail fun _ h => h⟩

theorem keepsBoxes_gets (g : Sys → α) : KeepsBoxes (M.gets g : S α) := ⟨fun _ => Spec.gets fun _ h => h⟩

theorem keepsBoxes_modify {g : Sys → Sys} (h : ∀ s, (g s).boxes = s.boxes) : KeepsBoxes (M.modify g : S Unit) :=
  ⟨fun _ => Spec.modify fun s hs => (h s).trans hs⟩

theorem keepsBoxes_onMachine (x : K α) : KeepsBoxes (onMachine x) := by
  refine ⟨fun boxes s hs => ?_⟩
  unfold onMachine
  rcases x s.machine with ⟨_ | _ | _, σ⟩
  · exact hs
  · exact hs
  · trivial

theorem keepsBoxes_checkedAdd (a b : ℕ) : KeepsBoxes (checkedAdd a b) := by
  unfold checkedAdd
  split_ifs
  · exact keepsBoxes_pure _
  · exact keepsBoxes_fail _

theorem keepsBoxes_rollbackPages (pt virt i pid oldEnd newEnd : ℕ) :
    KeepsBoxes (rollbackPages pt virt i pid oldEnd newEnd) := by
  refine (keepsBoxes_onMachine _).bind fun _ => (keepsBoxes_modify fun s => ?_).bind fun _ => keepsBoxes_fail _
  cases s.processes pid with
  | none => rfl
  | some q =>
    dsimp only
    split_ifs <;> rfl

theorem keepsBoxes_mapExternal (tid total n : ℕ) (pages : ℕ → ℕ) :
    KeepsBoxes (mapExternalPagesForReceiver tid total n pages) := by
  unfold mapExternalPagesForReceiver
  split_ifs
  · exact keepsBoxes_fail _
  · exact keepsBoxes_fail _
  · exact keepsBoxes_fail _
  · refine (keepsBoxes_gets _).bind fun s => ?_
    cases s.processOf tid with
    | none => exact keepsBoxes_fail _
    | some pid =>
      dsimp only
      cases s.processes pid with
      | none => exact keepsBoxes_fail _
      | some p =>
        dsimp only
        refine (keepsBoxes_checkedAdd _ _).bind fun _ => ?_
        refine (keepsBoxes_checkedAdd _ _).bind fun newEnd => ?_
        cases p.pageTable with
        | none => exact keepsBoxes_fail _
        | some pt =>
          dsimp only
          refine KeepsBoxes.bind (keepsBoxes_modify fun _ => rfl) fun _ => (keepsBoxes_onMachine _).bind fun r => ?_
          rcases r with _ | (_ | i)
          · exact keepsBoxes_fail _
          · exact keepsBoxes_pure _
          · exact keepsBoxes_rollbackPages ..

theorem keepsBoxes_copyToUser (ptr : ℕ) (src : List UInt8) : KeepsBoxes (copyToUser ptr src) := by
  unfold copyToUser
  by_cases hsrc : src = []
  · rw [if_pos hsrc]
    exact keepsBoxes_pure _
  · rw [if_neg hsrc]
    refine (keepsBoxes_gets _).bind fun s => ?_
    cases currentUserPageTable s with
    | none => exact keepsBoxes_fail _
    | some userPt =>
      dsimp only
      split_ifs
      · exact keepsBoxes_fail _
      · refine (keepsBoxes_onMachine _).bind fun r => ?_
        cases r with
        | ok _ => exact keepsBoxes_pure _
        | error _ => exact keepsBoxes_fail _

theorem keepsBoxes_finish (tid bufPtr : ℕ) (buf : List UInt8) (r : Received) : KeepsBoxes (finish tid bufPtr buf r) := by
  unfold finish prepareExternalPagesForUser handOver
  refine KeepsBoxes.bind ?_ fun prepared => ?_
  · split_ifs
    · exact keepsBoxes_pure _
    · exact keepsBoxes_fail _
    · exact (keepsBoxes_mapExternal _ _ _ _).bind fun _ => keepsBoxes_pure _
  · split_ifs
    · exact (keepsBoxes_copyToUser _ _).bind fun _ => keepsBoxes_pure _
    · exact keepsBoxes_pure _

/-! ## What an error leaves -/

/-- the caller's address, when it has one -/
def callerOf : Option Addr :=
  match receiver s with
  | (.ok r, _) => some r
  | _ => none

/-- the messages for the caller, oldest first -/
def inbox (r : Addr) : List Message := (s.boxes r.slot).contents.filter fun m => m.addressedTo r

/-- nothing of the caller is lost: its messages, its `heap_end` and its mappings -/
structure Kept (r : Addr) (s t : Sys) : Prop where
  inbox : inbox t r = inbox s r
  processes : t.processes = s.processes
  mappings : ∀ pageTable v, translateAddrInTable t.machine pageTable v = translateAddrInTable s.machine pageTable v

/-- the message that the next receive takes, if any, can be delivered -/
def FirstDeliverable (r : Addr) (bufPtr maxLen : ℕ) : Prop :=
  ∀ m, (inbox s r).head? = some m → ¬ Undeliverable s r.tid bufPtr maxLen m

/-- what `pop_valid_for_receiver_copy` does to the caller's messages -/
theorem popValid_inbox {s : Sys} (h : MailboxesReached s) (r : Addr) :
    ((s.boxes r.slot).popValid r).1 = (inbox s r).head? ∧
      inbox (setBox s r.slot ((s.boxes r.slot).popValid r).2) r = (inbox s r).tail := by
  obtain ⟨mb, hpop, -, hcontents⟩ := popValid_spec (h.inv r.slot) r
  have hbox : (setBox s r.slot mb).boxes r.slot = mb := update_self ..
  rw [hpop]
  unfold inbox
  rw [hbox, hcontents]
  refine ⟨List.head?_filter.symm, ?_⟩
  generalize (s.boxes r.slot).contents = l
  induction l with
  | nil => rfl
  | cons m l ih =>
    by_cases hm : m.addressedTo r
    · simp [hm]
    · simpa [hm] using ih

/-- an error after the pop has lost a message -/
theorem not_kept_of_popped {s : Sys} (hm : (inbox s r).head? = some m)
    (ht : inbox t r = (inbox s r).tail) : ¬ Kept r s t := by
  intro hk
  have h := hk.inbox
  rw [ht] at h
  cases hl : inbox s r with
  | nil => simp [hl] at hm
  | cons a l =>
    rw [hl, List.tail_cons] at h
    have := congrArg List.length h
    simp at this

/-- no message for the caller: what the pop leaves is all there was -/
theorem kept_of_empty {s : Sys} (hs : (inbox s r).head? = none)
    (ht : inbox (setBox s r.slot mb) r = (inbox s r).tail) : Kept r s (setBox s r.slot mb) := by
  refine ⟨?_, rfl, fun _ _ => rfl⟩
  rw [List.head?_eq_none_iff] at hs
  rw [ht, hs]
  rfl

/-- the rest of a receive after the pop of `m` -/
def afterPop (r : Addr) (bufPtr maxLen : ℕ) (m : Message) : S ℕ :=
  finish r.tid bufPtr ((m.copyOut (window maxLen)).2 ++ beyond maxLen) (m.copyOut (window maxLen)).1

/-- **After the pop.** The rest of a receive loses nothing exactly when it cannot fail. -/
theorem afterPop_kept_iff {s : Sys} (h : MailboxesReached s) (bufPtr maxLen : ℕ) (hm : (inbox s r).head? = some m) :
    (∀ e t, afterPop r bufPtr maxLen m (setBox s r.slot ((s.boxes r.slot).popValid r).2) = (.err e, t) → Kept r s t) ↔
      ¬ Undeliverable s r.tid bufPtr maxLen m := by
  obtain ⟨-, htail⟩ := popValid_inbox h r
  -- the rest of the receive does not look at the mailboxes
  have hfails : Fails (afterPop r bufPtr maxLen m) (setBox s r.slot ((s.boxes r.slot).popValid r).2) ↔
      Undeliverable s r.tid bufPtr maxLen m := finish_fails_iff (setBox s r.slot _) r.tid bufPtr maxLen m
  constructor
  · intro hkept hund
    obtain ⟨e, t, ht⟩ := hfails.2 hund
    have hboxes := (keepsBoxes_finish ..).of_err ht
    have hinbox : inbox t r = (inbox s r).tail := by
      rw [← htail]
      unfold inbox
      rw [hboxes]
    exact not_kept_of_popped hm hinbox (hkept e t ht)
  · intro hdel e t ht
    exact absurd (hfails.1 ⟨e, t, ht⟩) hdel

theorem recv_eq {s : Sys} (hr : receiver s = (.ok r, s)) (bufPtr maxLen : ℕ) :
    recv bufPtr maxLen s =
      match (s.boxes r.slot).popValid r with
      | (none, mb) => (.err .EAGAIN, setBox s r.slot mb)
      | (some m, mb) => afterPop r bufPtr maxLen m (setBox s r.slot mb) := by
  unfold recv
  rw [ok_bind hr, gets_bind_apply]
  simp only [id, popValidForReceiverCopy]
  rcases (s.boxes r.slot).popValid r with ⟨_ | m, mb⟩ <;> rfl

variable (bufPtr maxLen : ℕ)

theorem recvBlockingPass_some {s : Sys} (sleeps : Bool)
    (h : (s.boxes r.slot).popValid r = (some m, mb)) :
    recvBlockingPass r bufPtr maxLen sleeps s =
      (afterPop r bufPtr maxLen m >>= fun v => pure (some v)) (setBox s r.slot mb) := by
  unfold recvBlockingPass
  rw [gets_bind_apply]
  simp only [id, popValidForReceiverCopy, h]
  rfl

theorem recvBlockingPass_sleeps {s : Sys} (h : (s.boxes r.slot).popValid r = (none, mb)) :
    recvBlockingPass r bufPtr maxLen true s = (.ok none, setBox s r.slot { mb with waiter := r.tid }) := by
  unfold recvBlockingPass
  rw [gets_bind_apply]
  simp only [id, popValidForReceiverCopy, h]
  rfl

theorem recvBlockingPass_woken {s : Sys} (h : (s.boxes r.slot).popValid r = (none, mb)) :
    ∃ t, recvBlockingPass r bufPtr maxLen false s = (.ok (some 0), t) := by
  unfold recvBlockingPass
  rw [gets_bind_apply]
  simp only [id, popValidForReceiverCopy, h]
  exact ⟨_, rfl⟩

theorem receiver_state {s : Sys} (h : receiver s = (.ok r, t)) : t = s := by
  unfold receiver at h
  split at h
  · cases (Prod.mk.inj h).1
  · split at h
    · cases (Prod.mk.inj h).1
    · split_ifs at h
      · cases (Prod.mk.inj h).1
      · exact (Prod.mk.inj h).2.symm

theorem callerOf_eq_some {s : Sys} : callerOf s = some r ↔ receiver s = (.ok r, s) := by
  unfold callerOf
  constructor
  · intro h
    split at h
    next r' t hr =>
      cases h
      rw [hr, receiver_state hr]
    · cases h
  · intro h
    rw [h]

/-- **`recv`.** -/
theorem recv_kept_iff {s : Sys} (h : MailboxesReached s) (bufPtr maxLen : ℕ) (hr : callerOf s = some r) :
    (∀ e t, recv bufPtr maxLen s = (.err e, t) → Kept r s t) ↔ FirstDeliverable s r bufPtr maxLen := by
  obtain ⟨hhead, htail⟩ := popValid_inbox h r
  have hafter := fun m => afterPop_kept_iff h (r := r) (m := m) bufPtr maxLen
  rw [recv_eq (callerOf_eq_some.1 hr)]
  unfold FirstDeliverable
  rcases hpop : (s.boxes r.slot).popValid r with ⟨_ | m, mb⟩
  · rw [hpop] at hhead htail
    refine iff_of_true (fun e t ht => ?_) fun m hm => nomatch hhead.trans hm
    obtain ⟨-, rfl⟩ := Prod.mk.inj ht
    exact kept_of_empty hhead.symm htail
  · rw [hpop] at hhead hafter
    rw [hafter m hhead.symm, ← hhead]
    simp

/-- a pass that takes a message is the last one, and fails exactly as the rest after the pop does -/
theorem loop_of_popped {s : Sys} (others : List (Sys → Sys))
    (h : (s.boxes r.slot).popValid r = (some m, mb)) :
    lastPass r bufPtr maxLen others s = s ∧ ∀ e t, recvBlockingLoop r bufPtr maxLen others s = (.err e, t) ↔
      afterPop r bufPtr maxLen m (setBox s r.slot mb) = (.err e, t) := by
  have hpass := fun sleeps => recvBlockingPass_some bufPtr maxLen sleeps h
  constructor
  · cases others with
    | nil => rfl
    | cons f rest =>
      unfold lastPass
      rw [hpass, bind_apply]
      unfold M.bind
      rcases afterPop r bufPtr maxLen m (setBox s r.slot mb) with ⟨_ | _ | _, u⟩ <;> rfl
  · intro e t
    cases others with
    | nil | cons =>
      unfold recvBlockingLoop
      rw [bind_apply]
      unfold M.bind
      rw [hpass, bind_apply]
      unfold M.bind
      rcases afterPop r bufPtr maxLen m (setBox s r.slot mb) with ⟨_ | _ | _, u⟩ <;> exact .rfl

/-- **`recv_blocking`**, by induction on its sleeps: a pass without a message changes only the waiter. -/
theorem recvBlockingLoop_kept_iff (others : List (Sys → Sys))
    (ho : ∀ f ∈ others, ∀ s, MailboxesReached s → MailboxesReached (f s)) (s : Sys) (h : MailboxesReached s) :
    (∀ e t, recvBlockingLoop r bufPtr maxLen others s = (.err e, t) → Kept r (lastPass r bufPtr maxLen others s) t) ↔
      FirstDeliverable (lastPass r bufPtr maxLen others s) r bufPtr maxLen := by
  have hcase : ∀ s, MailboxesReached s → ∀ others m mb, (s.boxes r.slot).popValid r = (some m, mb) →
      ((∀ e t, recvBlockingLoop r bufPtr maxLen others s = (.err e, t) →
          Kept r (lastPass r bufPtr maxLen others s) t) ↔
        FirstDeliverable (lastPass r bufPtr maxLen others s) r bufPtr maxLen) := by
    intro s h others m mb hpop
    obtain ⟨hhead, -⟩ := popValid_inbox h r
    have hafter := fun m => afterPop_kept_iff h (r := r) (m := m) bufPtr maxLen
    obtain ⟨hlast, hloop⟩ := loop_of_popped bufPtr maxLen others hpop
    rw [hpop] at hhead hafter
    simp only [hlast, hloop]
    rw [hafter m hhead.symm]
    unfold FirstDeliverable
    rw [← hhead]
    simp
  induction others generalizing s with
  | nil =>
    rcases hpop : (s.boxes r.slot).popValid r with ⟨_ | m, mb⟩
    · obtain ⟨hhead, -⟩ := popValid_inbox h r
      rw [hpop] at hhead
      obtain ⟨u, hu⟩ := recvBlockingPass_woken bufPtr maxLen hpop
      refine iff_of_true (fun e t ht => ?_) fun m hm => nomatch hhead.trans hm
      unfold recvBlockingLoop at ht
      rw [ok_bind hu] at ht
      cases (Prod.mk.inj ht).1
    · exact hcase s h [] m mb hpop
  | cons f rest ih =>
    rcases hpop : (s.boxes r.slot).popValid r with ⟨_ | m, mb⟩
    · -- the pass sleeps: the mailbox is popped empty-handed and the waiter set, then the others run
      have hu := recvBlockingPass_sleeps bufPtr maxLen hpop
      have hstep : mb = (s.boxes r.slot).step (.popValidForReceiverCopy r []) := by
        rw [Mailbox.step, popValidForReceiverCopy_mailbox, hpop]
      have hreached : MailboxesReached (setBox s r.slot { mb with waiter := r.tid }) := by
        have h₁ := h.setBox r.slot (.popValidForReceiverCopy r [])
        rw [← hstep] at h₁
        have h₂ := h₁.setBox r.slot (.setWaiter r.tid)
        simpa [Receive.setBox, Mailbox.step] using h₂
      have := ih (fun g hg => ho g (List.mem_cons_of_mem _ hg)) (f (setBox s r.slot { mb with waiter := r.tid }))
        (ho f (List.mem_cons_self ..) _ hreached)
      unfold recvBlockingLoop lastPass
      rw [ok_bind hu, hu]
      exact this
    · exact hcase s h (f :: rest) m mb hpop

/-- **A failing receive loses nothing exactly when the first message for the caller can be delivered.** For every state
with mailboxes that their operations made, every buffer and length: an error of `recv` leaves the messages for the
caller, the processes' `heap_end` and every mapping as they were if and only if the first message for the caller, if
there is one, is not undeliverable. For `recv_blocking`, whatever the other threads do during its sleeps, the same holds
of the state in which its last pass starts. -/
theorem recv_keeps_iff (s : Sys) (h : MailboxesReached s) (bufPtr maxLen : ℕ) (r : Addr) (hr : callerOf s = some r)
    (others : List (Sys → Sys)) (ho : ∀ f ∈ others, ∀ s, MailboxesReached s → MailboxesReached (f s)) :
    ((∀ e t, recv bufPtr maxLen s = (.err e, t) → Kept r s t) ↔ FirstDeliverable s r bufPtr maxLen) ∧
    ((∀ e t, recvBlocking bufPtr maxLen others s = (.err e, t) → Kept r (lastPass r bufPtr maxLen others s) t) ↔
      FirstDeliverable (lastPass r bufPtr maxLen others s) r bufPtr maxLen) := by
  refine ⟨recv_kept_iff h bufPtr maxLen hr, ?_⟩
  unfold recvBlocking
  rw [ok_bind (callerOf_eq_some.1 hr)]
  exact recvBlockingLoop_kept_iff bufPtr maxLen others ho s h

/-! ### A buffer that is not mapped -/

/-- thread 7 of process 1 with an empty address space, and two bytes from thread 3 in its mailbox -/
def unmappedBuffer : Sys where
  queue := (ThreadQueue.new.push 7).2
  boxes := fun _ => (Mailbox.new.pushMessage 3 ⟨7, 0, 1⟩ [1, 2]).2
  current := some 7
  processOf := fun _ => some 1
  processes := fun _ => some ⟨0, some 0x5000⟩
  machine := ⟨fun _ _ => 0, BitmapFrameAllocator.new [] 0, some 0, 0x1000, some 1⟩

theorem unmappedBuffer_reached : MailboxesReached unmappedBuffer := fun _ => ⟨[.pushMessage 3 ⟨7, 0, 1⟩ [1, 2]], rfl⟩

theorem recv_keeps_iff_noBuffer : MailboxesReached unmappedBuffer ∧ callerOf unmappedBuffer = some ⟨7, 0, 1⟩ ∧
    ((∀ e t, recv 0 16 unmappedBuffer = (.err e, t) → Kept ⟨7, 0, 1⟩ unmappedBuffer t) ↔
      FirstDeliverable unmappedBuffer ⟨7, 0, 1⟩ 0 16) := by
  have hcaller : callerOf unmappedBuffer = some ⟨7, 0, 1⟩ := by decide +kernel
  exact ⟨unmappedBuffer_reached, hcaller,
    (recv_keeps_iff unmappedBuffer unmappedBuffer_reached 0 16 ⟨7, 0, 1⟩ hcaller [] fun _ h => nomatch h).1⟩

/-- the two bytes are gone after `EFAULT` -/
theorem short_buffer_loses_message :
    MailboxesReached unmappedBuffer ∧ callerOf unmappedBuffer = some ⟨7, 0, 1⟩ ∧
    ∃ t, recv 0x4000 16 unmappedBuffer = (.err .EFAULT, t) ∧ (inbox unmappedBuffer ⟨7, 0, 1⟩).length = 1 ∧
      inbox t ⟨7, 0, 1⟩ = [] ∧ ¬ Kept ⟨7, 0, 1⟩ unmappedBuffer t := by
  have hone : (inbox unmappedBuffer ⟨7, 0, 1⟩).length = 1 := by decide +kernel
  have hnone : inbox (recv 0x4000 16 unmappedBuffer).2 ⟨7, 0, 1⟩ = [] := by
    rw [← List.isEmpty_iff]
    decide +kernel
  have herr : (recv 0x4000 16 unmappedBuffer).1 = .err .EFAULT := by decide +kernel
  refine ⟨unmappedBuffer_reached, by decide +kernel, (recv 0x4000 16 unmappedBuffer).2, Prod.ext herr rfl, hone, hnone,
    fun h => ?_⟩
  rw [← h.inbox, hnone] at hone
  cases hone

end SwiftCore.Ipc.Receive
