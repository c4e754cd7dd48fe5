/-
The physical frame allocator (core/mem/frame.rs).

Free frames are kept in a list threaded through the frames themselves: the first word of a freed frame holds the
address of the next one, 0 ends the list. Frames that were never handed out come from a bump pointer, which skips every
frame outside the `Usable` regions of the boot memory map.

`PhysMem` is the physical memory as 64-bit words, reached by the kernel through the window at `physOffset`. The
functions below return `none` where the code panics: an overflowing u64 addition (the kernel is built with overflow
checks) or a physical address of more than 52 bits in `PhysAddr::new`.
-/
import Mathlib.Tactic

namespace SwiftCore.Mem

/-! ## Physical memory -/

/-- a 4 KiB frame: its number has the 40 bits that a 52-bit physical address leaves it -/
structure PhysFrame where
  number : ℕ
  lt : number < 2 ^ 40
deriving DecidableEq, Repr

/-- `PhysFrame::start_address` -/
def PhysFrame.startAddress (f : PhysFrame) : ℕ := f.number * 4096

/-- `PhysFrame::containing_address(PhysAddr::new(a))` -/
def PhysFrame.containingAddress (a : ℕ) : Option PhysFrame :=
  if h : a < 2 ^ 52 then some ⟨a / 4096, by omega⟩ else none

@[ext] theorem PhysFrame.ext_number {f g : PhysFrame} (h : f.number = g.number) : f = g := by
  cases f; cases g; cases h; rfl

theorem PhysFrame.startAddress_lt (f : PhysFrame) : f.startAddress < 2 ^ 52 := by
  have := f.lt
  unfold startAddress
  omega

theorem PhysFrame.startAddress_inj {f g : PhysFrame} (h : f.startAddress = g.startAddress) : f = g := by
  unfold startAddress at h
  exact PhysFrame.ext_number (by omega)

@[simp] theorem PhysFrame.containingAddress_startAddress (f : PhysFrame) :
    PhysFrame.containingAddress f.startAddress = some f := by
  have h := f.startAddress_lt
  unfold containingAddress
  rw [dif_pos h]
  exact congrArg some (PhysFrame.ext_number (by simp [startAddress]))

/-- the words of every frame -/
abbrev PhysMem := ℕ → ℕ → BitVec 64

/-- the word at a physical address, through the window -/
def PhysMem.read (m : PhysMem) (a : ℕ) : BitVec 64 := m (a / 4096) (a % 4096 / 8)

/-- the memory after a word is written at a physical address -/
def PhysMem.write (m : PhysMem) (a : ℕ) (w : BitVec 64) : PhysMem :=
  Function.update m (a / 4096) (Function.update (m (a / 4096)) (a % 4096 / 8) w)

/-- u64 addition with overflow checks -/
def add64 (a b : ℕ) : Option ℕ := if a + b < 2 ^ 64 then some (a + b) else none

theorem add64_eq_some {a b c : ℕ} (h : add64 a b = some c) : c = a + b ∧ a + b < 2 ^ 64 := by
  unfold add64 at h
  split_ifs at h with hlt
  exact ⟨(Option.some.inj h).symm, hlt⟩

/-! ## The memory map -/

/-- kinds of memory regions -/
inductive MemoryType
  | usable | reserved | acpiReclaimable | acpiNvs | badMemory | bootloaderReclaimable | kernelStack | pageTable
  | framebuffer
deriving DecidableEq, Repr

/-- an entry of the boot memory map -/
structure MemoryRegion where
  start : ℕ
  len : ℕ
  regionType : MemoryType
deriving DecidableEq, Repr

/-- the test of `is_usable_frame_addr` on one region; the end is only computed when the first two tests pass -/
def MemoryRegion.holds (r : MemoryRegion) (physAddr : ℕ) : Option Bool :=
  if r.regionType = .usable ∧ r.start ≤ physAddr then (add64 r.start r.len).map fun e => decide (physAddr < e)
  else some false

/-- the regions are tried in order up to the first that holds the address -/
def isUsableAddr : List MemoryRegion → ℕ → Option Bool
  | [], _ => some false
  | r :: rs, physAddr =>
    match r.holds physAddr with
    | none => none
    | some true => some true
    | some false => isUsableAddr rs physAddr

/-- the largest region end in frames, 0 for an empty map -/
def maxFrame : List MemoryRegion → Option ℕ
  | [] => some 0
  | r :: rs =>
    match add64 r.start r.len, maxFrame rs with
    | some e, some m => some (max (e / 4096) m)
    | _, _ => none

/-! ## The allocator -/

/-- the frame allocator -/
structure BitmapFrameAllocator where
  memoryMap : List MemoryRegion
  nextFrame : ℕ
  freeListHead : ℕ
  physOffset : ℕ
deriving DecidableEq, Repr

namespace BitmapFrameAllocator

/-- `new`: the bump pointer starts at 1 MiB -/
def new (memoryMap : List MemoryRegion) (physOffset : ℕ) : BitmapFrameAllocator :=
  ⟨memoryMap, 0x100000 / 4096, 0, physOffset⟩

def isUsableFrameAddr (a : BitmapFrameAllocator) (physAddr : ℕ) : Option Bool := isUsableAddr a.memoryMap physAddr

/-- `deallocate_frame`: `false` refuses the frame and changes nothing -/
def deallocateFrame (a : BitmapFrameAllocator) (m : PhysMem) (frame : PhysFrame) :
    Option (Bool × BitmapFrameAllocator × PhysMem) := do
  let physAddr := frame.startAddress
  if physAddr % 4096 ≠ 0 then return (false, a, m)
  let usable ← a.isUsableFrameAddr physAddr
  if !usable then return (false, a, m)
  if a.physOffset = 0 then return (false, a, m)
  let _ ← add64 physAddr a.physOffset
  return (true, { a with freeListHead := physAddr }, m.write physAddr (BitVec.ofNat 64 a.freeListHead))

/-- the `while f <= max_frame` loop from frame `f` on, with the number of frames left to try -/
def nextUsable (map : List MemoryRegion) : ℕ → ℕ → Option (Option ℕ)
  | 0, _ => some none
  | n + 1, f =>
    match isUsableAddr map (f * 4096) with
    | none => none
    | some true => some (some f)
    | some false => nextUsable map n (f + 1)

/-- `allocate_frame`: the head of the free list, else the next usable frame at or after the bump pointer -/
def allocateFrame (a : BitmapFrameAllocator) (m : PhysMem) :
    Option (Option PhysFrame × BitmapFrameAllocator × PhysMem) := do
  if a.freeListHead ≠ 0 ∧ a.physOffset ≠ 0 then
    let phys := a.freeListHead
    let _ ← add64 phys a.physOffset
    let head := (m.read phys).toNat
    let frame ← PhysFrame.containingAddress phys
    return (some frame, { a with freeListHead := head }, m.write phys 0)
  else
    let last ← maxFrame a.memoryMap
    match ← nextUsable a.memoryMap (last + 1 - a.nextFrame) a.nextFrame with
    | none => return (none, a, m)
    | some f =>
      let frame ← PhysFrame.containingAddress (f * 4096)
      return (some frame, { a with nextFrame := f + 1 }, m)

end BitmapFrameAllocator

/-! ## Device memory -/

def allowReclaimableMmio : Bool := false

def mmioRegionTypeAllowed : MemoryType → Bool
  | .badMemory => false
  | .reserved | .acpiNvs | .framebuffer => true
  | .acpiReclaimable | .bootloaderReclaimable => allowReclaimableMmio
  | .usable | .kernelStack | .pageTable => false

/-- the loop of `is_allowed_mmio_range` over the regions, with its two flags; `last` is the last byte of the range -/
def mmioScan (start last : ℕ) : List MemoryRegion → (overlapsAny contained : Bool) → Bool
  | [], overlapsAny, contained => contained || !overlapsAny
  | r :: rs, overlapsAny, contained =>
    if r.len = 0 then mmioScan start last rs overlapsAny contained
    else
      match add64 r.start (r.len - 1) with
      | none => mmioScan start last rs overlapsAny contained
      | some regionEnd =>
        if ¬ (start ≤ regionEnd ∧ r.start ≤ last) then mmioScan start last rs overlapsAny contained
        else if mmioRegionTypeAllowed r.regionType = false then false
        else mmioScan start last rs true (contained || (r.start ≤ start && last ≤ regionEnd))

/-- `is_allowed_mmio_range`; before `init` there is no allocator -/
def isAllowedMmioRange (alloc : Option BitmapFrameAllocator) (start size : ℕ) : Bool :=
  if size = 0 then false
  else
    match add64 start (size - 1), alloc with
    | some last, some a => mmioScan start last a.memoryMap false false
    | _, _ => false

end SwiftCore.Mem
