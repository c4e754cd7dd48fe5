/-
User address spaces (core/mem/paging.rs): creation from the kernel's tables, segments, protection, mapped physical
ranges, copies for fork, unmapping and teardown.

Some of these functions work through `OffsetPageTable` of the x86_64 crate. Its three operations are a parameter here,
`Mapper`, and `Documented` says what their documentation promises: which entries they may change on the way to a page.
Tables are named by their frame numbers where the source has addresses that it masked or aligned before.
-/
import SwiftCore.Mem.Paging

namespace SwiftCore.Mem

open Fallible

/-! ## OffsetPageTable -/

inductive MapToError
  | frameAllocationFailed
  | parentEntryHugePage
  | pageAlreadyMapped (frame : ℕ)
deriving DecidableEq, Repr

inductive UnmapError
  | parentEntryHugePage | pageNotMapped | invalidFrameAddress
deriving DecidableEq, Repr

inductive FlagUpdateError
  | pageNotMapped | parentEntryHugePage
deriving DecidableEq, Repr

/-- `map_to`, `unmap` and `update_flags` on the table in frame `l4` -/
structure Mapper where
  mapTo (l4 page frame : ℕ) (flags : Word) : M Machine MapToError PUnit
  unmap (l4 page : ℕ) : M Machine UnmapError PhysFrame
  updateFlags (l4 page : ℕ) (flags : Word) : M Machine FlagUpdateError PUnit

/-- the index of a page in the table of a level -/
def tableIndex (level page : ℕ) : ℕ := page / 2 ^ (12 + 9 * (level - 1)) % 512

/-- an entry that leads to the table in frame `f` -/
def Link (e : Word) (f : ℕ) : Prop := e ≠ 0 ∧ isHuge e = false ∧ frameOf e = f
  deriving Decidable

def Machine.setEntry (σ : Machine) (table i : ℕ) (e : Word) : Machine := { σ with mem := setWord σ.mem table i e }

/-- flags that `map_to` may give the tables on its way -/
def parentFlags : Word := Flags.present ||| Flags.writable ||| Flags.user

/-- `map_to` from the table of a level down: a missing table is allocated and cleared, the others may get more of the
parent flags, also a huge page that then ends the walk; an unused entry of the last table takes the page -/
inductive MapsTo (page frame : ℕ) (flags : Word) : ℕ → ℕ → Machine → Outcome MapToError PUnit → Machine → Prop
  | page {t : ℕ} {σ : Machine} (h : σ.mem t (tableIndex 1 page) = 0) :
      MapsTo page frame flags 1 t σ (.ok ⟨⟩) (σ.setEntry t (tableIndex 1 page) (entry frame flags))
  | mapped {t : ℕ} {σ : Machine} (h : σ.mem t (tableIndex 1 page) ≠ 0) :
      MapsTo page frame flags 1 t σ (.err (.pageAlreadyMapped (frameOf (σ.mem t (tableIndex 1 page))))) σ
  | noFrame {n t : ℕ} {σ : Machine} {alloc : BitmapFrameAllocator} {mem : PhysMem}
      (h : σ.mem t (tableIndex (n + 2) page) = 0) (halloc : σ.alloc.allocateFrame σ.mem = some (none, alloc, mem)) :
      MapsTo page frame flags (n + 2) t σ (.err .frameAllocationFailed) { σ with alloc, mem }
  | grow {n t : ℕ} {σ τ : Machine} {alloc : BitmapFrameAllocator} {mem : PhysMem} {f : PhysFrame} {fl : Word}
      {r : Outcome MapToError PUnit} (h : σ.mem t (tableIndex (n + 2) page) = 0)
      (halloc : σ.alloc.allocateFrame σ.mem = some (some f, alloc, mem)) (hfl : fl &&& parentFlags = fl)
      (hpresent : isPresent fl)
      (hrest : MapsTo page frame flags (n + 1) f.number
        (Machine.setEntry { σ with alloc, mem := Function.update mem f.number fun _ => 0 } t (tableIndex (n + 2) page)
          (entry f.number fl)) r τ) :
      MapsTo page frame flags (n + 2) t σ r τ
  | down {n t f : ℕ} {σ τ : Machine} {extra : Word} {r : Outcome MapToError PUnit}
      (h : Link (σ.mem t (tableIndex (n + 2) page)) f) (hextra : extra &&& parentFlags = extra)
      (hrest : MapsTo page frame flags (n + 1) f
        (σ.setEntry t (tableIndex (n + 2) page) (σ.mem t (tableIndex (n + 2) page) ||| extra)) r τ) :
      MapsTo page frame flags (n + 2) t σ r τ
  | huge {n t : ℕ} {σ : Machine} {extra : Word} (h : isHuge (σ.mem t (tableIndex (n + 2) page)) = true)
      (hextra : extra &&& parentFlags = extra) :
      MapsTo page frame flags (n + 2) t σ (.err .parentEntryHugePage)
        (σ.setEntry t (tableIndex (n + 2) page) (σ.mem t (tableIndex (n + 2) page) ||| extra))

/-- the walk to the last table of a page -/
def Walk (m : PhysMem) (l4 page l1 : ℕ) : Prop :=
  ∃ l3 l2, Link (m l4 (tableIndex 4 page)) l3 ∧ Link (m l3 (tableIndex 3 page)) l2 ∧
    Link (m l2 (tableIndex 2 page)) l1

/-- **What the documentation says.** `map_to` creates the mapping and the tables it needs; `unmap` removes a mapping and
returns its frame, freeing nothing; `update_flags` changes the flags of a mapping; a failing `unmap` or `update_flags`
changes nothing. -/
structure Mapper.Documented (T : Mapper) : Prop where
  mapTo {l4 page frame : ℕ} {flags : Word} {σ τ : Machine} {r : Outcome MapToError PUnit}
    (h : T.mapTo l4 page frame flags σ = (r, τ)) (hr : r ≠ .stuck) : MapsTo page frame flags 4 l4 σ r τ
  unmap {l4 page : ℕ} {σ τ : Machine} {f : PhysFrame} (h : T.unmap l4 page σ = (.ok f, τ)) :
    ∃ l1, Walk σ.mem l4 page l1 ∧ isPresent (σ.mem l1 (tableIndex 1 page)) ∧
      frameOf (σ.mem l1 (tableIndex 1 page)) = f.number ∧ τ = σ.setEntry l1 (tableIndex 1 page) 0
  unmap_err {l4 page : ℕ} {σ τ : Machine} {e : UnmapError} (h : T.unmap l4 page σ = (.err e, τ)) : τ = σ
  updateFlags {l4 page : ℕ} {flags : Word} {σ τ : Machine} (h : T.updateFlags l4 page flags σ = (.ok ⟨⟩, τ)) :
    ∃ l1, Walk σ.mem l4 page l1 ∧ σ.mem l1 (tableIndex 1 page) ≠ 0 ∧
      τ = σ.setEntry l1 (tableIndex 1 page) (entry (frameOf (σ.mem l1 (tableIndex 1 page))) flags)
  updateFlags_err {l4 page : ℕ} {flags : Word} {σ τ : Machine} {e : FlagUpdateError}
    (h : T.updateFlags l4 page flags σ = (.err e, τ)) : τ = σ

/-! ## Creation -/

/-- a new frame, cleared -/
def allocateTable : K ℕ := do
  let frame ← allocateFrame
  zeroFrame frame.number
  pure frame.number

/-- `clone_kernel_l1_table_without_user_entries` -/
def cloneKernelL1TableWithoutUserEntries (srcL1 : ℕ) : K ℕ := do
  let newL1 ← allocateTable
  M.forRange (fun i => do
    let e ← readEntry srcL1 i
    if e = 0 ∨ ¬ isPresent e then pure ()
    else if isUser e then pure ()
    else writeEntry newL1 i e) 512 0
  pure newL1

/-- `clone_kernel_l2_table_without_user_entries` -/
def cloneKernelL2TableWithoutUserEntries (srcL2 : ℕ) : K ℕ := do
  let newL2 ← allocateTable
  M.forRange (fun i => do
    let e ← readEntry srcL2 i
    if e = 0 ∨ ¬ isPresent e then pure ()
    else if isHuge e then M.when (¬ isUser e) (writeEntry newL2 i e)
    else do
      let newL1 ← cloneKernelL1TableWithoutUserEntries (frameOf e)
      writeEntry newL2 i (entry newL1 (flagsOf e))) 512 0
  pure newL2

/-- `create_user_page_table`, the copy of `L4[0]` of the kernel -/
def copyKernelL4Entry (kernelL4 newL4 : ℕ) : K Unit := do
  let l4e ← readEntry kernelL4 0
  let newL3 ← allocateTable
  let l3e ← readEntry (frameOf l4e) 0
  M.when (l3e ≠ 0) do
    let newL2 ← cloneKernelL2TableWithoutUserEntries (frameOf l3e)
    let l3e ← readEntry (frameOf l4e) 0
    writeEntry newL3 0 (entry newL2 (flagsOf l3e))
  let l4e ← readEntry kernelL4 0
  writeEntry newL4 0 (entry newL3 (flagsOf l4e))

/-- `create_user_page_table`, the tables for user code at 0x800000: a second level 2 table with the kernel's entries -/
def openUserCode (userL3 : ℕ) : K Unit := do
  let newL2 ← allocateTable
  let l3e ← readEntry userL3 0
  M.when (l3e ≠ 0) (M.forRange (fun i => do
    let e ← readEntry (frameOf l3e) i
    M.when (e ≠ 0 ∧ ¬ isUser e) (writeEntry newL2 i e)) 512 0)
  let newL1 ← allocateTable
  writeEntry newL2 4 (entry newL1 (Flags.present ||| Flags.writable ||| Flags.user))
  writeEntry userL3 0 (entry newL2 (Flags.present ||| Flags.writable))

/-- `create_user_page_table`: the address of the new level 4 table -/
def createUserPageTable : K ℕ := do
  let _ ← physicalMemoryOffset
  let kernelL4Phys ← M.gets Machine.kernelL4
  if kernelL4Phys = 0 then M.fail (.memory .notMapped)
  else do
    let newL4 ← allocateTable
    let l4e ← readEntry (kernelL4Phys / 4096) 0
    M.when (l4e ≠ 0) (copyKernelL4Entry (kernelL4Phys / 4096) newL4)
    let userL4e ← readEntry newL4 0
    M.when (frameOf userL4e ≠ 0) (openUserCode (frameOf userL4e))
    pure (newL4 * 4096)

/-! ## Segments -/

/-- one level of `ensure_user_page_table_hierarchy`; only the last one replaces a huge page -/
def ensureTable (table i : ℕ) (replaceHuge : Bool) : K Unit := do
  let e ← readEntry table i
  if e = 0 ∨ (replaceHuge ∧ isHuge e) then do
    let below ← allocateTable
    writeEntry table i (entry below (Flags.present ||| Flags.writable ||| Flags.user))
  else
    writeEntry table i (entry (frameOf e)
      ((flagsOf e ||| Flags.present ||| Flags.writable ||| Flags.user) &&& ~~~Flags.noExecute))

/-- `ensure_user_page_table_hierarchy` -/
def ensureUserPageTableHierarchy (l4 vaddr : ℕ) : K Unit := do
  ensureTable l4 (p4Index vaddr) false
  let l4e ← readEntry l4 (p4Index vaddr)
  ensureTable (frameOf l4e) (p3Index vaddr) false
  let l3e ← readEntry (frameOf l4e) (p3Index vaddr)
  ensureTable (frameOf l3e) (p2Index vaddr) true

/-- `final_flags` of a segment -/
def segmentFlags (writable executable : Bool) : Word :=
  Flags.present ||| Flags.user ||| (if writable then Flags.writable else 0) |||
    (if executable then 0 else Flags.noExecute)

/-- the part of `map_and_copy_segment_to` that sets the level 1 entry, merging with what is there; the frame the data
goes to -/
def installPage (l1 i : ℕ) (frame : PhysFrame) (finalFlags : Word) : K ℕ := do
  let e ← readEntry l1 i
  if e = 0 then do
    writeEntry l1 i (entry frame.number finalFlags)
    pure frame.number
  else if ¬ isUser e then do
    writeEntry l1 i (entry frame.number (if isNoExecute e then finalFlags else finalFlags &&& ~~~Flags.noExecute))
    pure frame.number
  else if (¬ isNoExecute e ∧ isWritable finalFlags) ∨ (isWritable e ∧ ¬ isNoExecute finalFlags) then do
    let _ ← M.attempt (deallocateFrame frame)
    M.fail (.memory .permissionDenied)
  else do
    writeEntry l1 i (entry (frameOf e) (if ¬ isNoExecute e then finalFlags &&& ~~~Flags.noExecute else finalFlags))
    let _ ← M.attempt (deallocateFrame frame)
    pure (frameOf e)

/-- the bytes of a segment that lie in a page -/
def copySegmentBytes (pageAddr vaddr fileEnd : ℕ) (src : List UInt8) (frame : ℕ) : K Unit :=
  let copyStart := max pageAddr vaddr
  let copyEnd := min (pageAddr + 4096) fileEnd
  M.when (copyStart < copyEnd) (M.modify fun σ => { σ with
    mem := writeBytes σ.mem (frame * 4096 + (copyStart - pageAddr))
      ((src.drop (copyStart - vaddr)).take (copyEnd - copyStart)) })

/-- one turn of the loop of `map_and_copy_segment_to` -/
def mapSegmentPage (l4 vaddr fileEnd : ℕ) (src : List UInt8) (finalFlags : Word) (pageAddr : ℕ) : K Unit := do
  ensureUserPageTableHierarchy l4 pageAddr
  let frame ← allocateFrame
  zeroFrame frame.number
  let l4e ← readEntry l4 (p4Index pageAddr)
  if frameOf l4e = 0 then M.fail (.memory .invalidAddress)
  else do
    let l3e ← readEntry (frameOf l4e) (p3Index pageAddr)
    if frameOf l3e = 0 then M.fail (.memory .invalidAddress)
    else do
      let l2e ← readEntry (frameOf l3e) (p2Index pageAddr)
      if frameOf l2e = 0 then M.fail (.memory .invalidAddress)
      else do
        let target ← installPage (frameOf l2e) (p1Index pageAddr) frame finalFlags
        copySegmentBytes pageAddr vaddr fileEnd src target

/-- `checked_add` fails -/
def Overflows (a b : ℕ) : Prop := 2 ^ 64 ≤ a + b
  deriving Decidable

/-- the first page of a range and the number of its pages -/
def firstPage (a : ℕ) : ℕ := a - a % 4096

def pageCount (a stop : ℕ) : ℕ := ((stop + 0xfff) / 4096 * 4096 - firstPage a) / 4096

/-- `map_and_copy_segment_to` between the two changes of the kernel's own table -/
def mapSegment (l4 vaddr filesz memsz : ℕ) (src : List UInt8) (finalFlags : Word) : K Unit := do
  ensureUserPageTableHierarchy l4 vaddr
  ensureUserPageTableHierarchy l4 (vaddr + memsz - 1)
  if Overflows (vaddr + memsz) 0xfff then M.fail (.memory .invalidAddress)
  else
    M.forRange (fun j => mapSegmentPage l4 vaddr (vaddr + filesz) src finalFlags (firstPage vaddr + j * 4096))
      (pageCount vaddr (vaddr + memsz)) 0

/-- where the kernel maps the user's level 4 table meanwhile; the mapping stays when the function fails -/
def scratchPage : ℕ := 0xFFFF800000000000

section

variable (T : Mapper)

/-- `map_and_copy_segment_to` -/
def mapAndCopySegmentTo (tablePhys vaddr filesz memsz : ℕ) (src : List UInt8) (writable executable : Bool) : K Unit :=
  if writable && executable then M.fail (.memory .permissionDenied)
  else do
    let _ ← physicalMemoryOffset
    if memsz = 0 then (if filesz = 0 then pure () else M.fail .invalidParam)
    else if memsz < filesz ∨ src.length < filesz then M.fail .invalidParam
    else if Overflows vaddr filesz ∨ Overflows vaddr memsz then M.fail (.memory .invalidAddress)
    else do
      match ← M.gets Machine.pageTable with
      | none => M.fail (.memory .notMapped)
      | some kernelPt =>
        if tablePhys ≥ 2 ^ 52 then M.halt
        else do
          match ← M.attempt (T.mapTo kernelPt scratchPage (tablePhys / 4096)
              (Flags.present ||| Flags.writable ||| Flags.noExecute)) with
          | .error _ => M.fail (.memory .invalidAddress)
          | .ok _ => do
            mapSegment (tablePhys / 4096) vaddr filesz memsz src (segmentFlags writable executable)
            let _ ← M.attempt (T.unmap kernelPt scratchPage)
            pure ()

/-! ## Protection -/

/-- the flags `protect_user_range_in_table` sets -/
def protectedFlags (e : Word) (present writable executable : Bool) : Word :=
  (flagsOf e &&& ~~~(Flags.present ||| Flags.user ||| Flags.writable ||| Flags.noExecute)) |||
    (if present then Flags.present ||| Flags.user ||| (if writable then Flags.writable else 0) |||
      (if executable then 0 else Flags.noExecute)
    else 0)

/-- one turn of the loop of `protect_user_range_in_table` -/
def protectPage (tablePhys : ℕ) (present writable executable : Bool) (pageAddr : ℕ) : K Unit := do
  let σ ← M.gets id
  match userPageFlagsInTable σ tablePhys pageAddr with
  | none => M.fail (.memory .notMapped)
  | some e =>
    if ¬ isPresent e ∨ ¬ isUser e then M.fail (.memory .notMapped)
    else do
      match ← M.attempt (T.updateFlags (tablePhys / 4096) pageAddr (protectedFlags e present writable executable)) with
      | .error _ => M.fail (.memory .invalidAddress)
      | .ok _ => pure ()

/-- `protect_user_range_in_table` -/
def protectUserRangeInTable (tablePhys addr len : ℕ) (present writable executable : Bool) : K Unit :=
  if present && writable && executable then M.fail (.memory .permissionDenied)
  else if len = 0 then pure ()
  else if addr = 0 ∨ addr > userSpaceEnd then M.fail (.memory .invalidAddress)
  else if Overflows addr (len - 1) ∨ addr + (len - 1) > userSpaceEnd then M.fail (.memory .invalidAddress)
  else do
    let _ ← physicalMemoryOffset
    M.forRange (fun j => protectPage T tablePhys present writable executable (firstPage addr + j * 4096))
      (pageCount addr (addr + len)) 0

/-! ## Physical ranges -/

/-- flags of a mapped physical page -/
def physicalFlags : Word := Flags.present ||| Flags.writable ||| Flags.user ||| Flags.noExecute

/-- one turn of the loop of `map_physical_range_to_user`: a page that is mapped is unmapped first -/
def mapPhysicalPage (l4 virt phys : ℕ) : K Unit :=
  if ¬ Canonical virt ∨ phys ≥ 2 ^ 52 then M.halt
  else do
    match ← M.attempt (T.mapTo l4 virt (phys / 4096) physicalFlags) with
    | .ok _ => pure ()
    | .error (.pageAlreadyMapped _) => do
      let _ ← M.attempt (T.unmap l4 virt)
      match ← M.attempt (T.mapTo l4 virt (phys / 4096) physicalFlags) with
      | .ok _ => pure ()
      | .error _ => M.fail (.memory .invalidAddress)
    | .error _ => M.fail (.memory .invalidAddress)

/-- `total_pages`: none when the size is too large to round up -/
@[irreducible] def physicalPages (size : ℕ) : ℕ := if Overflows size 0xfff then 0 else (size + 0xfff) / 4096

/-- `map_physical_range_to_user` -/
def mapPhysicalRangeToUser (tablePhys virtAddr physAddr size : ℕ) : K Unit := do
  let _ ← physicalMemoryOffset
  if size = 0 then pure ()
  else
    M.forRange (fun i => mapPhysicalPage T (tablePhys / 4096) (firstPage virtAddr + i * 4096)
      (firstPage physAddr + i * 4096)) (physicalPages size) 0

/-! ## Unmapping -/

/-- one turn of the loop of `unmap_range_in_table` -/
def unmapRangePage (tablePhys pageAddr : ℕ) : K Unit := do
  let σ ← M.gets id
  M.when ((userPageFlagsInTable σ tablePhys pageAddr).isSome) do
    if ¬ Canonical pageAddr then M.halt
    else do
      match ← M.attempt (T.unmap (tablePhys / 4096) pageAddr) with
      | .error _ => pure ()
      | .ok frame => do
        let _ ← M.attempt (deallocateFrame frame)
        pure ()

/-- `unmap_range_in_table` -/
def unmapRangeInTable (tablePhys addr length : ℕ) : K Unit :=
  if length = 0 then pure ()
  else do
    let _ ← physicalMemoryOffset
    if Overflows addr length ∨ Overflows (addr + length) 0xfff then M.fail (.memory .invalidAddress)
    else
      M.forRange (fun j => unmapRangePage T tablePhys (firstPage addr + j * 4096)) (pageCount addr (addr + length)) 0

/-! ## Teardown -/

/-- `deallocate_4k_frame_by_phys`, of the address of frame `f` -/
def deallocate4kFrameByPhys (f : ℕ) : K Unit :=
  match PhysFrame.containingAddress (f * 4096) with
  | none => M.halt
  | some frame => do
    let _ ← M.attempt (deallocateFrame frame)
    pure ()

/-- the loop of the `destroy_user_*` functions over a table's entries for user code, and the end of the table itself:
what an entry leads to is destroyed first, unless `forget` says that the entry is only cleared -/
def destroyTable (destroyBelow : ℕ → K Unit) (forget : Word → Bool) (entries table : ℕ) : K Unit := do
  M.forRange (fun i => do
    let e ← readEntry table i
    if e = 0 ∨ ¬ isPresent e ∨ ¬ isUser e then pure ()
    else if forget e then writeEntry table i 0
    else do
      destroyBelow (frameOf e)
      writeEntry table i 0) entries 0
  deallocate4kFrameByPhys table

/-- `destroy_user_l1_table`: its entries lead to pages -/
def destroyUserL1Table : ℕ → K Unit := destroyTable deallocate4kFrameByPhys (fun _ => false) 512

/-- `destroy_user_l2_table` -/
def destroyUserL2Table : ℕ → K Unit := destroyTable destroyUserL1Table isHuge 512

/-- `destroy_user_l3_table` -/
def destroyUserL3Table : ℕ → K Unit := destroyTable destroyUserL2Table isHuge 512

/-- `destroy_user_page_table`: the lower half -/
def destroyUserPageTable (tablePhys : ℕ) : K Unit :=
  if tablePhys = 0 ∨ tablePhys % 4096 ≠ 0 then M.fail .invalidParam
  else do
    let _ ← physicalMemoryOffset
    destroyTable destroyUserL3Table isHuge 256 (tablePhys / 4096)

/-! ## Copies for fork -/

/-- the flags of a copied page -/
def copiedFlags (e : Word) : Word :=
  Flags.present ||| Flags.user ||| (if isWritable e then Flags.writable else 0) |||
    (if isNoExecute e then Flags.noExecute else 0)

/-- `clone_user_page_table`, one user page; on a page that is mapped already, `deallocate_frame` waits for the lock of
the allocator that the block around it holds -/
def copyUserPage (dstL4 vaddr srcL1 i : ℕ) (pte : Word) : K Unit := do
  let newFrame ← allocateFrame
  match ← M.attempt (T.mapTo dstL4 vaddr newFrame.number (copiedFlags pte)) with
  | .ok _ => do
    let pte ← readEntry srcL1 i
    M.modify fun σ => { σ with mem := Function.update σ.mem newFrame.number (σ.mem (frameOf pte)) }
  | .error (.pageAlreadyMapped _) => do
    match ← M.attempt (T.unmap dstL4 vaddr) with
    | .error _ => M.fail (.memory .invalidAddress)
    | .ok _ => M.halt
  | .error _ => M.fail (.memory .invalidAddress)

/-- the four loops of `clone_user_page_table`, the inner one first -/
def copyUserL1 (dstL4 base srcL1 : ℕ) : K Unit :=
  M.forRange (fun i => do
    let pte ← readEntry srcL1 i
    if pte = 0 ∨ ¬ isPresent pte ∨ ¬ isUser pte then pure ()
    else copyUserPage T dstL4 (base + i * 2 ^ 12) srcL1 i pte) 512 0

def copyUserL2 (dstL4 base srcL2 : ℕ) : K Unit :=
  M.forRange (fun i => do
    let e ← readEntry srcL2 i
    if e = 0 ∨ ¬ isPresent e ∨ isHuge e then pure ()
    else copyUserL1 T dstL4 (base + i * 2 ^ 21) (frameOf e)) 512 0

def copyUserL3 (dstL4 base srcL3 : ℕ) : K Unit :=
  M.forRange (fun i => do
    let e ← readEntry srcL3 i
    if e = 0 ∨ ¬ isPresent e ∨ isHuge e then pure ()
    else copyUserL2 T dstL4 (base + i * 2 ^ 30) (frameOf e)) 512 0

def copyUserL4 (dstL4 srcL4 : ℕ) : K Unit :=
  M.forRange (fun i => do
    let e ← readEntry srcL4 i
    if e = 0 ∨ ¬ isPresent e then pure ()
    else copyUserL3 T dstL4 (i * 2 ^ 39) (frameOf e)) 256 0

/-- `clone_user_page_table`: an error destroys the new table -/
def cloneUserPageTable (srcTablePhys : ℕ) : K ℕ := do
  let _ ← physicalMemoryOffset
  let dstTablePhys ← createUserPageTable
  M.onError (do
    copyUserL4 T (dstTablePhys / 4096) (srcTablePhys / 4096)
    pure dstTablePhys) (destroyUserPageTable dstTablePhys)

end

end SwiftCore.Mem
