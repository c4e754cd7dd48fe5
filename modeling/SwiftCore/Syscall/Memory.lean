/-
System calls that change the memory of a process (core/syscall/process.rs: brk, mmap, munmap; core/syscall/privileged.rs:
alloc_shared_pages, map_physical_pages, ipc_send_pages, unmap_pages).

The caller is given by its process. Arguments that the calls read from user memory, the page lists, are given as what was
read; `randomized_heap_base` takes the number that its hash comes to. Of the message that `ipc_send_pages` sends in the
end only the answer matters here, and it is a parameter. Where an address computation overflows the kernel panics.
-/
import SwiftCore.Ipc.Mailbox
import SwiftCore.Mem.AddressSpace
import SwiftCore.Syscall.Types

namespace SwiftCore.Syscall.Memory

open Fallible Mem

/-! ## State -/

inductive PrivilegeLevel
  | core | service | user
deriving DecidableEq, Repr

/-- what these calls use of a process -/
structure Process where
  privilege : PrivilegeLevel
  heapStart : ℕ
  heapEnd : ℕ
  pageTable : Option ℕ
deriving DecidableEq, Repr

structure Sys where
  machine : Machine
  processes : ℕ → Option Process
  /-- `thread_to_process_id` -/
  processOf : ℕ → Option ℕ

/-- system calls: an `Errno`, or no return -/
abbrev S := M Sys Errno

/-- paging code inside a system call, with the error number it stands for -/
def paging {α : Type} (e : Errno) (x : K α) : S α := fun s =>
  match x s.machine with
  | (.ok a, machine) => (.ok a, { s with machine })
  | (.err _, machine) => (.err e, { s with machine })
  | (.stuck, machine) => (.stuck, { s with machine })

/-- code that cannot fail -/
def machine (x : K Unit) : S Unit := paging .EFAULT x

def setProcess (s : Sys) (pid : ℕ) (p : Process) : Sys :=
  { s with processes := Function.update s.processes pid (some p) }

/-- `with_process`, with the error for a process that is gone -/
def withProcess (pid : ℕ) (e : Errno) : S Process := fun s =>
  match s.processes pid with
  | some p => (.ok p, s)
  | none => (.err e, s)

/-- `p.page_table()`, or an error -/
def pageTableOf (p : Process) (e : Errno) : S ℕ :=
  match p.pageTable with
  | some a => pure a
  | none => M.fail e

/-! ## Addresses -/

/-- `page_align_up`, for sums that fit -/
@[irreducible] def pageAlignUp (a : ℕ) : Option ℕ := if Overflows a 4095 then none else some ((a + 4095) / 4096 * 4096)

/-- `checked_add` and `page_align_up`: `EINVAL` when they do not fit -/
def orInvalid (a : Option ℕ) : S ℕ :=
  match a with
  | some v => pure v
  | none => M.fail .EINVAL

def isUserRange (addr len : ℕ) : Bool :=
  if len = 0 then addr ≤ userSpaceEnd
  else !decide (Overflows addr (len - 1)) && decide (addr ≤ userSpaceEnd) && decide (addr + (len - 1) ≤ userSpaceEnd)

/-- `saturating_add` -/
def saturatingAdd (a b : ℕ) : ℕ := min (a + b) (2 ^ 64 - 1)

/-- `randomized_heap_base`, from the number its hash comes to -/
def randomizedHeapBase (hash floor maxPages : ℕ) : ℕ := saturatingAdd floor (hash % maxPages * 4096)

/-- a heap that was never set up starts at a random place -/
def openHeap (hash floor maxPages : ℕ) (p : Process) : Process :=
  if p.heapStart = 0 then
    { p with heapStart := randomizedHeapBase hash floor maxPages, heapEnd := randomizedHeapBase hash floor maxPages }
  else p

/-- the loop of `is_user_range_mapped_in_table` -/
def allUserMapped (σ : Machine) (tablePhys firstPage n : ℕ) : Bool :=
  (List.range n).all fun j => (userPageFlagsInTable σ tablePhys (firstPage + j * 4096)).isSome

/-- `is_user_range_mapped_in_table` -/
def isUserRangeMappedInTable (σ : Machine) (tablePhys addr len : ℕ) : Bool :=
  if addr > userSpaceEnd then false
  else if len = 0 then true
  else if Overflows addr (len - 1) ∨ addr + (len - 1) > userSpaceEnd then false
  else allUserMapped σ tablePhys (firstPage addr) (((addr + (len - 1)) / 4096 * 4096 - firstPage addr) / 4096 + 1)

/-! ## brk, mmap, munmap -/

section

variable (T : Mapper)

/-- `brk`; the page of the break itself is mapped as well -/
def brk (hash pid addr : ℕ) : S ℕ := do
  let p₀ ← withProcess pid .ENOSYS
  let p := openHeap hash 0x40000000 0x8000 p₀
  M.modify fun s => setProcess s pid p
  if addr = 0 then pure p.heapEnd
  else if addr < p.heapStart then M.fail .EINVAL
  else if ¬ isUserRange addr 1 then M.fail .EINVAL
  else if addr ≤ p.heapEnd then do
    M.modify fun s => setProcess s pid { p with heapEnd := addr }
    pure addr
  else do
    let pt ← pageTableOf p .ENOSYS
    let mapped ← M.gets fun s => isUserRangeMappedInTable s.machine pt p.heapEnd 1
    let startPage ← orInvalid (pageAlignUp (if mapped then saturatingAdd p.heapEnd 1 else p.heapEnd))
    let endPage ← orInvalid ((pageAlignUp (saturatingAdd addr 1)).filter fun v => isUserRange (v - 1) 1)
    M.when (endPage > startPage)
      (paging .ENOSYS (mapAndCopySegmentTo T pt startPage 0 (endPage - startPage) [] true false))
    M.modify fun s => setProcess s pid { p with heapEnd := addr }
    pure addr

/-- `mmap`, of anonymous memory -/
def mmap (hash pid addr length : ℕ) : S ℕ :=
  if length = 0 then M.fail .EINVAL
  else do
    let size ← orInvalid ((pageAlignUp length).filter (0 < ·))
    let p₀ ← withProcess pid .ENOMEM
    let p := openHeap hash 0x50000000 0x10000 p₀
    M.modify fun s => setProcess s pid p
    if addr ≠ 0 ∧ addr > userSpaceEnd then M.fail .EINVAL
    else do
      let mapStart ← orInvalid (pageAlignUp (if addr ≠ 0 then addr else p.heapEnd))
      if ¬ isUserRange mapStart size then M.fail .EINVAL
      else do
        let pt ← pageTableOf p .ENOMEM
        paging .ENOMEM (mapAndCopySegmentTo T pt mapStart 0 size [] true false)
        M.when (addr = 0) do
          if Overflows mapStart size then M.fail .EINVAL
          else M.modify fun s => setProcess s pid { p with heapEnd := mapStart + size }
        pure mapStart

/-- `munmap` -/
def munmap (pid addr length : ℕ) : S Unit :=
  if addr = 0 ∨ length = 0 then M.fail .EINVAL
  else if Overflows addr length then M.fail .EINVAL
  else do
    let unmapEnd ← orInvalid (pageAlignUp (addr + length))
    if unmapEnd ≤ firstPage addr then M.fail .EINVAL
    else if ¬ isUserRange (firstPage addr) (unmapEnd - firstPage addr) then M.fail .EINVAL
    else do
      let p ← withProcess pid .ENOSYS
      let pt ← pageTableOf p .ENOSYS
      paging .EINVAL (unmapRangeInTable T pt (firstPage addr) (unmapEnd - firstPage addr))

end

/-! ## Shared pages -/

/-- `require_service_privilege` -/
def requireServicePrivilege (pid : ℕ) : S Unit := do
  let p ← withProcess pid .EPERM
  if p.privilege = .user then M.fail .EPERM else pure ()

/-- `usable_frames` -/
def usableFrames (a : BitmapFrameAllocator) : ℕ :=
  ((a.memoryMap.filter fun r => r.regionType = .usable).map MemoryRegion.len).sum / 4096

/-- `shared_page_limit` -/
def sharedPageLimit : S ℕ := M.gets fun s => max (usableFrames s.machine.alloc) 128

/-- `is_allowed_phys_page`, for every page of a list -/
def requireAllowed : List ℕ → S Unit
  | [] => pure ()
  | phys :: rest => do
    let a ← M.gets fun s => s.machine.alloc
    if phys % 4096 ≠ 0 then M.fail .EINVAL
    else
      match a.isUsableFrameAddr phys with
      | none => M.halt
      | some false => M.fail .EINVAL
      | some true => requireAllowed rest

/-- `virt_addr + (i as u64 * 0x1000)` -/
def pageAt (virt i : ℕ) : K ℕ := if virt + i * 0x1000 < 2 ^ 64 then pure (virt + i * 0x1000) else M.halt

/-- unmap the pages before page `n`; errors are ignored -/
def unmapPagesBefore (pageTable virt n : ℕ) : K Unit :=
  M.forRange (fun j => do
    let v ← pageAt virt j
    let _ ← M.attempt (unmapPageInTable pageTable v)
    pure ()) n 0

/-- the loop that maps the pages one after another; when it fails the ones before are unmapped -/
def mapPages (pageTable virt : ℕ) : ℕ → List ℕ → K Unit
  | _, [] => pure ()
  | i, phys :: rest => do
    let v ← pageAt virt i
    M.onError (mapPageInTable pageTable v phys true true) (unmapPagesBefore pageTable virt i)
    mapPages pageTable virt (i + 1) rest

/-- where a call puts its pages: the address, the table, and `heap_end` before and after if it was moved -/
structure Place where
  virt : ℕ
  pageTable : ℕ
  heap : Option (ℕ × ℕ)

/-- the choice of the address: the hint, or behind the heap, which is moved; `base` when there is no heap -/
def reserve (pid base hint span : ℕ) : S Place :=
  if hint ≠ 0 then
    if hint % 4096 ≠ 0 then M.fail .EINVAL
    else do
      let p ← withProcess pid .EINVAL
      let pt ← pageTableOf p .EINVAL
      pure ⟨hint, pt, none⟩
  else do
    let p ← withProcess pid .EINVAL
    let virt ← orInvalid (pageAlignUp (if p.heapEnd = 0 then base else p.heapEnd))
    let newEnd ← orInvalid (if Overflows virt span then none else some (virt + span))
    let pt ← pageTableOf p .EINVAL
    M.modify fun s => setProcess s pid { p with heapEnd := newEnd }
    pure ⟨virt, pt, some (p.heapEnd, newEnd)⟩

/-- `heap_end` is put back, unless someone moved it meanwhile -/
def giveBack (pid : ℕ) (place : Place) : S Unit := M.modify fun s =>
  match place.heap, s.processes pid with
  | some (oldEnd, newEnd), some p => if p.heapEnd = newEnd then setProcess s pid { p with heapEnd := oldEnd } else s
  | _, _ => s

/-- `map_phys_pages_into_target` -/
def mapPhysPagesIntoTarget (targetTid : ℕ) (physPages : List ℕ) (hint : ℕ) : S ℕ := do
  let limit ← sharedPageLimit
  if physPages = [] ∨ physPages.length > limit then M.fail .EINVAL
  else do
    requireAllowed physPages
    match ← M.gets fun s => s.processOf targetTid with
    | none => M.fail .EINVAL
    | some targetPid =>
      if 2 ^ 64 ≤ physPages.length * 0x1000 then M.fail .EINVAL
      else do
        let place ← reserve targetPid 0x600000000000 hint (physPages.length * 0x1000)
        M.onError (paging .EFAULT (mapPages place.pageTable place.virt 0 physPages)) (giveBack targetPid place)
        pure place.virt

/-- `map_physical_pages`, from the page list on -/
def mapPhysicalPages (pid targetTid : ℕ) (physPages : List ℕ) (hint : ℕ) : S ℕ := do
  requireServicePrivilege pid
  mapPhysPagesIntoTarget targetTid physPages hint

/-- `ipc_send_pages`, from the page list on; the hint is ignored, and `sent` says whether the mailbox took the header -/
def ipcSendPages (pid destTid : ℕ) (physPages : List ℕ) (sent : Bool) : S Unit := do
  requireServicePrivilege pid
  if destTid = 0 then M.fail .EINVAL
  else do
    let _ ← mapPhysPagesIntoTarget destTid physPages 0
    if sent then pure () else M.fail .EAGAIN

/-- `deallocate_frames` -/
def deallocateFrames : List PhysFrame → K Unit
  | [] => pure ()
  | f :: rest => do
    let _ ← M.attempt (deallocateFrame f)
    deallocateFrames rest

/-- the first loop of `alloc_shared_pages`: `n` more frames after `taken`, or none at all -/
def allocateFrames : ℕ → List PhysFrame → K (List PhysFrame)
  | 0, taken => pure taken
  | n + 1, taken => do
    let f ← M.onError allocateFrame (deallocateFrames taken)
    allocateFrames n (taken ++ [f])

/-- `copy_to_user`: every error is `EFAULT` -/
def copyToUser (pid dstPtr : ℕ) (src : List UInt8) : S Unit :=
  if src = [] then pure ()
  else do
    let p ← withProcess pid .EFAULT
    let userPt ← pageTableOf p .EFAULT
    if dstPtr = 0 then M.fail .EFAULT
    else paging .EFAULT (copyToUserInTable userPt dstPtr src)

/-- `alloc_shared_pages`; an error unmaps the pages, puts `heap_end` back and frees the frames -/
def allocSharedPages (pid count out outLen hint : ℕ) : S ℕ := do
  requireServicePrivilege pid
  let limit ← sharedPageLimit
  if count = 0 ∨ count > limit then M.fail .EINVAL
  else if out ≠ 0 ∧ outLen < count then M.fail .EINVAL
  else do
    let frames ← paging .ENOMEM (allocateFrames count [])
    let physPages := frames.map PhysFrame.startAddress
    M.onError (do
      if 2 ^ 64 ≤ count * 0x1000 then M.fail .EINVAL
      else do
        let place ← reserve pid 0x700000000000 hint (count * 0x1000)
        M.onError (do
          paging .EFAULT (mapPages place.pageTable place.virt 0 physPages)
          M.when (out ≠ 0) (M.onError (copyToUser pid out (physPages.flatMap (Ipc.leBytes 8)))
            (machine (unmapPagesBefore place.pageTable place.virt count)))) (giveBack pid place)
        pure place.virt) (machine (deallocateFrames frames))

/-- the frames of `unmap_pages`, each once -/
def freeOnce : List ℕ → List ℕ → K Unit
  | [], _ => pure ()
  | phys :: rest, freed =>
    if firstPage phys ∈ freed then freeOnce rest freed
    else do
      deallocate4kFrameByPhys (phys / 4096)
      freeOnce rest (firstPage phys :: freed)

/-- the physical addresses of the pages `i..i + n` that are mapped -/
def physAddrs (pageTable virt : ℕ) : ℕ → ℕ → K (List ℕ)
  | 0, _ => pure []
  | n + 1, i => do
    let v ← pageAt virt i
    let phys ← M.gets fun σ => virtToPhysInTable σ pageTable v
    let rest ← physAddrs pageTable virt n (i + 1)
    pure (phys.toList ++ rest)

/-- the addresses that `unmap_pages` frees in the end -/
def physToFree (pageTable virt count : ℕ) (deallocate : Bool) : K (List ℕ) :=
  if deallocate then physAddrs pageTable virt count 0 else pure []

/-- `unmap_pages` -/
def unmapPages (pid virt count : ℕ) (deallocate : Bool) : S Unit := do
  requireServicePrivilege pid
  let limit ← sharedPageLimit
  if count = 0 ∨ count > limit then M.fail .EINVAL
  else if virt % 4096 ≠ 0 then M.fail .EINVAL
  else do
    let p ← withProcess pid .EINVAL
    let pt ← pageTableOf p .EINVAL
    machine do
      let phys ← physToFree pt virt count deallocate
      unmapPagesBefore pt virt count
      freeOnce phys []

end SwiftCore.Syscall.Memory
