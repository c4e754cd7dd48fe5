/-
User page tables (core/mem/paging.rs): lookups, copies to user memory, mapping and unmapping single pages.

Page tables live in the physical memory that everything else lives in: an entry is a word of a frame, and the walks below
follow the frame numbers they read there. The kernel reaches a physical address `p` at `p + PHYS_OFFSET`; this window is
taken to lie inside the address space, so that the additions `phys + phys_off` of the source do not overflow. Locks, TLB
flushes and the SMAP guard have no counterpart.
-/
import SwiftCore.Lib.Fallible
import SwiftCore.Mem.Entry
import SwiftCore.Mem.Frame

namespace SwiftCore.Mem

open Fallible Function

/-! ## State and errors -/

/-- `result::Memory` -/
inductive Memory
  | outOfMemory | invalidAddress | permissionDenied | alreadyMapped | notMapped | alignmentError
deriving DecidableEq, Repr

/-- the part of `result::Kernel` that paging returns -/
inductive Kernel
  | memory (e : Memory)
  | invalidParam
deriving DecidableEq, Repr

/-- memory and the statics of paging.rs and frame.rs; `kernelL4` is `KERNEL_L4_PHYS` and `pageTable` the level 4 frame
that `PAGE_TABLE` manages -/
structure Machine where
  mem : PhysMem
  alloc : BitmapFrameAllocator
  physOffset : Option ℕ
  kernelL4 : ℕ
  pageTable : Option ℕ

/-- kernel code: it fails with a `Kernel` error or, on a panic, does not return -/
abbrev K := M Machine Kernel

/-- x86-64 canonical end of user space -/
def userSpaceEnd : ℕ := 0x00007FFFFFFFFFFF

/-- addresses `VirtAddr::new` accepts -/
def Canonical (v : ℕ) : Prop := v < 2 ^ 47 ∨ 2 ^ 64 - 2 ^ 47 ≤ v ∧ v < 2 ^ 64
  deriving Decidable

def p4Index (v : ℕ) : ℕ := v / 2 ^ 39 % 512

def p3Index (v : ℕ) : ℕ := v / 2 ^ 30 % 512

def p2Index (v : ℕ) : ℕ := v / 2 ^ 21 % 512

def p1Index (v : ℕ) : ℕ := v / 2 ^ 12 % 512

/-! ## Words, frames -/

def readEntry (table i : ℕ) : K Word := M.gets fun σ => σ.mem table i

/-- the memory after one word of a frame is set -/
def setWord (m : PhysMem) (f i : ℕ) (w : Word) : PhysMem := update m f (update (m f) i w)

def writeEntry (table i : ℕ) (e : Word) : K Unit := M.modify fun σ => { σ with mem := setWord σ.mem table i e }

/-- `write_bytes(.., 0, 4096)` -/
def zeroFrame (f : ℕ) : K Unit := M.modify fun σ => { σ with mem := update σ.mem f fun _ => 0 }

/-- one byte of a word -/
def setByte (w : Word) (k : ℕ) (b : UInt8) : Word :=
  w &&& ~~~(0xff#64 <<< (8 * k)) ||| b.toBitVec.setWidth 64 <<< (8 * k)

/-- `copy_nonoverlapping` of a byte string to a physical address -/
def writeBytes (m : PhysMem) (phys : ℕ) : List UInt8 → PhysMem
  | [] => m
  | b :: bs => writeBytes (m.write phys (setByte (m.read phys) (phys % 8) b)) (phys + 1) bs

/-- `frame::allocate_frame` -/
def allocateFrame : K PhysFrame := fun σ =>
  match σ.alloc.allocateFrame σ.mem with
  | some (some f, alloc, mem) => (.ok f, { σ with alloc, mem })
  | some (none, alloc, mem) => (.err (.memory .outOfMemory), { σ with alloc, mem })
  | none => (.stuck, σ)

/-- `frame::deallocate_frame` -/
def deallocateFrame (f : PhysFrame) : K Unit := fun σ =>
  match σ.alloc.deallocateFrame σ.mem f with
  | some (true, alloc, mem) => (.ok (), { σ with alloc, mem })
  | some (false, alloc, mem) => (.err (.memory .invalidAddress), { σ with alloc, mem })
  | none => (.stuck, σ)

/-- `physical_memory_offset().ok_or(NotMapped)` -/
def physicalMemoryOffset : K ℕ := fun σ =>
  match σ.physOffset with
  | some off => (.ok off, σ)
  | none => (.err (.memory .notMapped), σ)

/-! ## Lookups -/

/-- one level of `user_page_flags_in_table`: the entry must be in use, present and user accessible -/
def userEntry (m : PhysMem) (table i : ℕ) : Option Word :=
  let e := m table i
  if e = 0 ∨ ¬ isPresent e ∨ ¬ isUser e then none else some e

/-- `user_page_flags_in_table`; the entry whose flags it returns -/
def userPageFlagsInTable (σ : Machine) (tablePhys pageAddr : ℕ) : Option Word := do
  let _ ← σ.physOffset
  if tablePhys % 4096 ≠ 0 then none
  if p4Index pageAddr ≥ 256 then none
  let l4e ← userEntry σ.mem (tablePhys / 4096) (p4Index pageAddr)
  let l3e ← userEntry σ.mem (frameOf l4e) (p3Index pageAddr)
  if isHuge l3e then return l3e
  let l2e ← userEntry σ.mem (frameOf l3e) (p2Index pageAddr)
  if isHuge l2e then return l2e
  userEntry σ.mem (frameOf l2e) (p1Index pageAddr)

/-- one level of `translate_addr_in_table` -/
def presentEntry (m : PhysMem) (table i : ℕ) : Option Word :=
  let e := m table i
  if e = 0 ∨ ¬ isPresent e then none else some e

/-- `translate_addr_in_table`: the physical address and the entry it was found in. An address of 2^52 or more, from an entry
for a huge page that is not aligned, makes `PhysAddr::new` panic; the kernel makes no such entries. -/
def translateAddrInTable (σ : Machine) (tablePhys addr : ℕ) : Option (ℕ × Word) := do
  let _ ← σ.physOffset
  if tablePhys % 4096 ≠ 0 then none
  let l4e ← presentEntry σ.mem (tablePhys / 4096) (p4Index addr)
  let l3e ← presentEntry σ.mem (frameOf l4e) (p3Index addr)
  if isHuge l3e then return (frameOf l3e * 4096 + addr % 2 ^ 30, l3e)
  let l2e ← presentEntry σ.mem (frameOf l3e) (p2Index addr)
  if isHuge l2e then return (frameOf l2e * 4096 + addr % 2 ^ 21, l2e)
  let l1e ← presentEntry σ.mem (frameOf l2e) (p1Index addr)
  return (frameOf l1e * 4096 + addr % 4096, l1e)

/-- `virt_to_phys_in_table` -/
def virtToPhysInTable (σ : Machine) (tablePhys virtAddr : ℕ) : Option ℕ :=
  (translateAddrInTable σ tablePhys virtAddr).map Prod.fst

/-- `translate_user_addr_in_table`: the physical address and the offset in its page -/
def translateUserAddrInTable (σ : Machine) (tablePhys addr : ℕ) (requireWritable : Bool) : Option (ℕ × ℕ) := do
  if addr > userSpaceEnd then none
  let e ← userPageFlagsInTable σ tablePhys (addr - addr % 4096)
  if requireWritable && !isWritable e then none
  let (phys, _) ← translateAddrInTable σ tablePhys addr
  return (phys, addr % 4096)

/-! ## Copies to user memory -/

/-- the copy loop of `copy_to_user_in_table`: one page at a time, at most `n` of them -/
def copyToUserLoop (tablePhys : ℕ) : ℕ → ℕ → List UInt8 → K Unit
  | 0, _, _ => pure ()
  | _ + 1, _, [] => pure ()
  | n + 1, cur, src => do
    let σ ← M.gets id
    match translateUserAddrInTable σ tablePhys cur true with
    | none => M.fail (.memory .permissionDenied)
    | some (phys, pageOff) =>
      let chunk := min (4096 - pageOff) src.length
      M.modify fun σ => { σ with mem := writeBytes σ.mem phys (src.take chunk) }
      copyToUserLoop tablePhys n (cur + chunk) (src.drop chunk)

/-- `copy_to_user_in_table` -/
def copyToUserInTable (tablePhys dstPtr : ℕ) (src : List UInt8) : K Unit :=
  if src = [] then pure ()
  else do
    let _ ← physicalMemoryOffset
    let stop := dstPtr + (src.length - 1)
    if stop ≥ 2 ^ 64 then M.fail (.memory .invalidAddress)
    else if dstPtr = 0 ∨ dstPtr > userSpaceEnd ∨ stop > userSpaceEnd then M.fail (.memory .invalidAddress)
    else copyToUserLoop tablePhys src.length dstPtr src

/-! ## Mapping and unmapping a page -/

/-- flags of a table entry made by `map_page_in_table` -/
def tableFlags (userAccessible : Bool) : Word :=
  if userAccessible then Flags.present ||| Flags.writable ||| Flags.user else Flags.present ||| Flags.writable

/-- one level of `map_page_in_table`: the table below entry `i`, made when it is missing, opened to user code when a
user page is mapped -/
def tableBelow (table i : ℕ) (userAccessible : Bool) : K ℕ := do
  let e ← readEntry table i
  if e = 0 ∨ ¬ isPresent e then
    let frame ← allocateFrame
    zeroFrame frame.number
    writeEntry table i (entry frame.number (tableFlags userAccessible))
    return frame.number
  else
    if userAccessible && !isUser e then
      writeEntry table i (entry (frameOf e) (flagsOf e ||| Flags.user))
    return frameOf e

/-- a huge page in the way -/
def refuseHuge (table i : ℕ) : K Unit := do
  let e ← readEntry table i
  if e ≠ 0 ∧ isPresent e ∧ isHuge e then M.fail (.memory .alreadyMapped)

/-- flags of the page itself: `map_page_in_table` never sets `NO_EXECUTE` -/
def pageFlags (writable userAccessible : Bool) : Word :=
  Flags.present ||| (if writable then Flags.writable else 0) ||| (if userAccessible then Flags.user else 0)

/-- `map_page_in_table` -/
def mapPageInTable (tablePhys virtAddr physAddr : ℕ) (writable userAccessible : Bool) : K Unit :=
  if tablePhys % 4096 ≠ 0 then M.fail (.memory .alignmentError)
  else if virtAddr % 4096 ≠ 0 then M.fail (.memory .alignmentError)
  else if physAddr % 4096 ≠ 0 then M.fail (.memory .alignmentError)
  else do
    let _ ← physicalMemoryOffset
    if ¬ Canonical virtAddr then M.halt
    else do
      let l3 ← tableBelow (tablePhys / 4096) (p4Index virtAddr) userAccessible
      refuseHuge l3 (p3Index virtAddr)
      let l2 ← tableBelow l3 (p3Index virtAddr) userAccessible
      refuseHuge l2 (p2Index virtAddr)
      let l1 ← tableBelow l2 (p2Index virtAddr) userAccessible
      if physAddr ≥ 2 ^ 52 then M.halt
      else writeEntry l1 (p1Index virtAddr) (entry (physAddr / 4096) (pageFlags writable userAccessible))

/-- `unmap_page_in_table`: nothing to do when a table on the way is missing -/
def unmapPageInTable (tablePhys virtAddr : ℕ) : K Unit :=
  if tablePhys % 4096 ≠ 0 then M.fail (.memory .alignmentError)
  else if virtAddr % 4096 ≠ 0 then M.fail (.memory .alignmentError)
  else do
    let _ ← physicalMemoryOffset
    if ¬ Canonical virtAddr then M.halt
    else do
      let m ← M.gets Machine.mem
      match presentEntry m (tablePhys / 4096) (p4Index virtAddr) with
      | none => pure ()
      | some l4e =>
        match presentEntry m (frameOf l4e) (p3Index virtAddr) with
        | none => pure ()
        | some l3e =>
          match presentEntry m (frameOf l3e) (p2Index virtAddr) with
          | none => pure ()
          | some l2e => writeEntry (frameOf l2e) (p1Index virtAddr) 0

end SwiftCore.Mem
