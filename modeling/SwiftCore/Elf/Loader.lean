/-
The loader of the built-in services (core/task/elf.rs, `load_elf_into` with its relocation code).

Headers, dynamic entries and relocations are read through pointers into the file, `*(data.as_ptr().add(offset))` cast to
the type, behind a check of `offset + size_of::<T>()`; the types have 8-byte fields, so the address must be a multiple
of 8. What the paging code does is a parameter (`PageTableOps`), and so are the pages by which a position-independent
program is moved.

- `ends_applyRelocationsTo`: when the relocation code returns.
- `ends_of_loadable`, `loadable_of_ends`: the loader returns whatever the paging code answers exactly for the files that
  are `Loadable`, a condition on the bytes and the address of the file alone.
-/
import SwiftCore.Elf.Headers
import SwiftCore.Mem.Paging

namespace SwiftCore.Elf

open Bytes Checked Fallible
open Mem (Kernel)
open Exec (add sub mul div rem slice forRange add_eq mul_eq)

/-! ## Paging -/

/-- the functions of paging.rs and user.rs that a loader calls -/
structure PageTableOps (σ : Type) where
  createUserPageTable : M σ Kernel ℕ
  destroyUserPageTable (table : ℕ) : M σ Kernel Unit
  mapAndCopySegmentTo (table vaddr filesz memsz : ℕ) (src : List UInt8) (writable executable : Bool) : M σ Kernel Unit
  copyToUserInTable (table addr : ℕ) (bytes : List UInt8) : M σ Kernel Unit
  /-- bottom and top of a stack of the given pages -/
  allocUserStackInTable (table pages : ℕ) : M σ Kernel (ℕ × ℕ)

/-- every operation returns -/
structure PageTableOps.Total {σ : Type} (ops : PageTableOps σ) : Prop where
  create : ∀ s, Ends ops.createUserPageTable s
  destroy : ∀ table s, Ends (ops.destroyUserPageTable table) s
  map : ∀ table vaddr filesz memsz src writable executable s,
    Ends (ops.mapAndCopySegmentTo table vaddr filesz memsz src writable executable) s
  copy : ∀ table addr bytes s, Ends (ops.copyToUserInTable table addr bytes) s
  stack : ∀ table pages s, Ends (ops.allocUserStackInTable table pages) s

/-! ## Reads -/

/-- a read through a pointer to a type of 8-byte alignment -/
def deref {α : Type} (data : File) (offset size : ℕ) (value : α) : Exec α := do
  let upto ← add 64 offset size
  if data.len < upto then .absent
  else if (data.addr + offset) % 8 ≠ 0 then .stop .misaligned
  else return value

variable (data : File)

/-- `parse_header`; the comparison of the length has no sum -/
def parseHeader : Exec Elf64Ehdr :=
  if data.len < 64 then .absent
  else if data.addr % 8 ≠ 0 then .stop .misaligned
  else return ehdr data

variable (offset : ℕ)

def readPhdr : Exec Elf64Phdr := deref data offset phdrSize (phdr data offset)

structure Elf64Dyn where
  dTag : UInt64
  dVal : UInt64

def dynSize : ℕ := 16

def dynAt : Elf64Dyn := ⟨data.u64 offset, data.u64 (offset + 8)⟩

def readDyn : Exec Elf64Dyn := deref data offset dynSize (dynAt data offset)

structure Elf64Rela where
  rOffset : UInt64
  rInfo : UInt64
  rAddend : UInt64

def relaSize : ℕ := 24

def relaAt : Elf64Rela := ⟨data.u64 offset, data.u64 (offset + 8), data.u64 (offset + 16)⟩

def readRela : Exec Elf64Rela := deref data offset relaSize (relaAt data offset)

/-! ## Segments -/

def etDyn : UInt16 := 3

def ptDynamic : UInt32 := 2

variable (h : Elf64Ehdr)

/-- `validate_header` -/
def validHeader : Bool :=
  h.eIdent.take 4 = elfMagic ∧ h.eIdent[4]? = some 2 ∧ h.eIdent[5]? = some 1 ∧ h.eMachine = emX86_64 ∧
    h.ePhentsize.toNat = phdrSize

/-- `PIE_LOAD_BIAS + offset_pages * 4096` -/
def pieLoadBias (random : ℕ) : ℕ := 0x20000000 + random % 0x4000 * 4096

/-- program header `i`, or an error -/
def readEntry (i : ℕ) : Exec Elf64Phdr :=
  match phdrOffset h i with
  | none => .absent
  | some off => readPhdr data off

/-- one turn of the loop that maps the segments -/
def loadTurn {σ : Type} (ops : PageTableOps σ) (table : ℕ) (data : File) (h : Elf64Ehdr) (bias i : ℕ) :
    M σ Kernel Unit := do
  let ph ← M.checked .invalidParam (readEntry data h i)
  if ph.pType ≠ ptLoad then pure ()
  else if ph.pMemsz = 0 then pure ()
  else if ph.pMemsz < ph.pFilesz then M.fail (.memory .invalidAddress)
  else if data.len < ph.pOffset.toNat + ph.pFilesz.toNat then M.fail (.memory .invalidAddress)
  else do
    let src ← M.checked .invalidParam
      (slice data.bytes ph.pOffset.toNat (ph.pOffset.toNat + ph.pFilesz.toNat))
    if ph.pFlags &&& 2 ≠ 0 ∧ ph.pFlags &&& 1 ≠ 0 then M.fail (.memory .permissionDenied)
    else
      ops.mapAndCopySegmentTo table ((ph.pVaddr.toNat + bias) % 2 ^ 64) ph.pFilesz.toNat ph.pMemsz.toNat src
        (ph.pFlags &&& 2 ≠ 0) (ph.pFlags &&& 1 ≠ 0)

/-! ## Relocations -/

/-- one turn of the loop that collects the loaded ranges -/
def rangeTurn (bias i : ℕ) (ranges : List (ℕ × ℕ)) :
    Exec (List (ℕ × ℕ) ⊕ List (ℕ × ℕ)) := do
  let ph ← readEntry data h i
  if ph.pType ≠ ptLoad ∨ ph.pMemsz = 0 then return .inl ranges
  else
    let start := (ph.pVaddr.toNat + bias) % 2 ^ 64
    if 2 ^ 64 ≤ start + ph.pMemsz.toNat then .absent
    else return .inl (ranges ++ [(start, start + ph.pMemsz.toNat)])

/-- one turn of `dynamic_file_range` -/
def dynamicTurn (i : ℕ) (_ : Unit) : Exec (Unit ⊕ (ℕ × ℕ)) := do
  let ph ← readEntry data h i
  return if ph.pType = ptDynamic then .inr (ph.pOffset.toNat, ph.pFilesz.toNat) else .inl ()

/-- what the dynamic section says about relocations -/
structure DynInfo where
  relaAddr : Option ℕ
  relaSize : Option ℕ
  relaEnt : Option ℕ

def DynInfo.none : DynInfo := ⟨.none, .none, .none⟩

/-- what an entry adds -/
def DynInfo.note (info : DynInfo) (d : Elf64Dyn) : DynInfo :=
  if d.dTag = 7 then { info with relaAddr := some d.dVal.toNat }
  else if d.dTag = 8 then { info with relaSize := some d.dVal.toNat }
  else if d.dTag = 9 then { info with relaEnt := some d.dVal.toNat }
  else info

/-- one turn of the loop over the dynamic entries; `DT_NULL` ends it -/
def dynTurn (dynOff i : ℕ) (info : DynInfo) : Exec (DynInfo ⊕ DynInfo) := do
  let x ← mul 64 i dynSize
  let off ← add 64 dynOff x
  let d ← readDyn data off
  return if d.dTag = 0 then .inr info else .inl (info.note d)

/-- the dynamic entries, if there is a dynamic segment -/
def dynInfo : Exec DynInfo := do
  let r ← forRange (dynamicTurn data h) h.ePhnum.toNat 0 ()
  match r with
  | .inl _ => return DynInfo.none
  | .inr (dynOff, size) => do
    let r ← forRange (dynTurn data dynOff) (size / dynSize) 0 DynInfo.none
    return r.elim id id

/-- one turn of `vaddr_to_offset` -/
def offsetTurn (vaddr i : ℕ) (_ : Unit) : Exec (Unit ⊕ ℕ) := do
  let ph ← readEntry data h i
  if ph.pType ≠ ptLoad then return .inl ()
  else if 2 ^ 64 ≤ ph.pVaddr.toNat + ph.pMemsz.toNat then .absent
  else if ph.pVaddr.toNat ≤ vaddr ∧ vaddr < ph.pVaddr.toNat + ph.pMemsz.toNat then do
    let delta ← sub vaddr ph.pVaddr.toNat
    let fileOff ← add 64 ph.pOffset.toNat delta
    if data.len ≤ fileOff then .absent else return .inr fileOff
  else return .inl ()

def vaddrToOffset (vaddr : ℕ) : Exec ℕ := do
  match ← forRange (offsetTurn data h vaddr) h.ePhnum.toNat 0 () with
  | .inl _ => .absent
  | .inr fileOff => return fileOff

def rX86_64Relative : ℕ := 8

/-- one relocation -/
def relocTurn {σ : Type} (ops : PageTableOps σ) (table : ℕ) (data : File) (bias : ℕ) (ranges : List (ℕ × ℕ))
    (relaOff relaEnt i : ℕ) : M σ Kernel Unit := do
  let rela ← M.checked .invalidParam (do
    let x ← mul 64 i relaEnt
    let off ← add 64 relaOff x
    readRela data off)
  if rela.rInfo.toNat % 2 ^ 32 = rX86_64Relative then
    let relocVaddr := (bias + rela.rOffset.toNat) % 2 ^ 64
    if 2 ^ 64 ≤ relocVaddr + 8 then M.fail .invalidParam
    else if ranges.any (fun r => r.1 ≤ relocVaddr ∧ relocVaddr + 8 ≤ r.2) then
      ops.copyToUserInTable table relocVaddr (leBytes 8 ((bias + rela.rAddend.toNat) % 2 ^ 64))
    else M.fail .invalidParam
  else pure ()

/-- `apply_relocations_to` -/
def applyRelocationsTo {σ : Type} (ops : PageTableOps σ) (table : ℕ) (data : File) (h : Elf64Ehdr) (bias : ℕ) :
    M σ Kernel Unit := do
  let ranges ← M.checked .invalidParam (forRange (rangeTurn data h bias) h.ePhnum.toNat 0 [])
  let info ← M.checked .invalidParam (dynInfo data h)
  match info.relaAddr, info.relaSize with
  | some relaAddr, some size => do
    let ent := info.relaEnt.getD relaSize
    if ent < relaSize ∨ size % ent ≠ 0 then M.fail .invalidParam
    else do
      let relaOff ← M.checked .invalidParam (vaddrToOffset data h relaAddr)
      M.forRange (relocTurn ops table data bias (ranges.elim id id) relaOff ent) (size / ent) 0
  | _, _ => pure ()

structure LoadedElf where
  entry : ℕ
  loadBias : ℕ
  stackTop : ℕ
  stackBottom : ℕ

/-- `load_elf_into` from the choice of the bias on; `random` is what `next_pie_load_bias` draws -/
def loadAtBias {σ : Type} (ops : PageTableOps σ) (table : ℕ) (data : File) (h : Elf64Ehdr) (random : ℕ) :
    M σ Kernel LoadedElf := do
  let bias := if h.eType = etDyn then pieLoadBias random else 0
  M.forRange (loadTurn ops table data h bias) h.ePhnum.toNat 0
  M.when (bias ≠ 0) (applyRelocationsTo ops table data h bias)
  let stack ← ops.allocUserStackInTable table 8
  return ⟨(h.eEntry.toNat + bias) % 2 ^ 64, bias, stack.2, stack.1⟩

/-- `load_elf_into` -/
def loadElfInto {σ : Type} (ops : PageTableOps σ) (table : ℕ) (data : File) (random : ℕ) : M σ Kernel LoadedElf := do
  let h ← M.checked .invalidParam (parseHeader data)
  if validHeader h = false then M.fail .invalidParam
  else loadAtBias ops table data h random

/-! ## What the loader needs of a file -/

/-- program header `i`; a valid header has entries of `phdrSize` bytes -/
def entry (i : ℕ) : Elf64Phdr := phdr data (h.ePhoff.toNat + i * phdrSize)

/-- entries of `size` bytes from `offset` on: the first one ends inside the address space and, if it ends in the file,
is aligned -/
def FirstReadable (offset size : ℕ) : Prop :=
  offset + size < 2 ^ 64 ∧ (offset + size ≤ data.len → (data.addr + offset) % 8 = 0)

/-- a loadable entry whose bytes are in the file and not both writable and executable -/
def EntryAccepted (i : ℕ) : Prop :=
  h.ePhoff.toNat + i * phdrSize + phdrSize ≤ data.len ∧
    ((entry data h i).pType = ptLoad → (entry data h i).pMemsz ≠ 0 →
      (entry data h i).pFilesz ≤ (entry data h i).pMemsz ∧
        (entry data h i).pOffset.toNat + (entry data h i).pFilesz.toNat ≤ data.len ∧
        ¬ ((entry data h i).pFlags &&& 2 ≠ 0 ∧ (entry data h i).pFlags &&& 1 ≠ 0))

/-- where entry `i` is loaded -/
def loadStart (bias i : ℕ) : ℕ := ((entry data h i).pVaddr.toNat + bias) % 2 ^ 64

/-- entry `i` takes up memory -/
def Loads (i : ℕ) : Prop :=
  (entry data h i).pType = ptLoad ∧ (entry data h i).pMemsz ≠ 0
  deriving Decidable

/-- the end of its range -/
def loadEnd (bias i : ℕ) : ℕ :=
  loadStart data h bias i + (entry data h i).pMemsz.toNat

def RangeFits (bias i : ℕ) : Prop := loadEnd data h bias i < 2 ^ 64
  deriving Decidable

def RangesFit (bias : ℕ) : Prop :=
  ∀ i < h.ePhnum.toNat, Loads data h i → RangeFits data h bias i

/-- entry `d` is the first dynamic segment -/
def IsDynamic (d : ℕ) : Prop :=
  (d < h.ePhnum.toNat ∧ (entry data h d).pType = ptDynamic) ∧ ∀ j < d, (entry data h j).pType ≠ ptDynamic

def dynEntry (dynOff i : ℕ) : Elf64Dyn := dynAt data (dynOff + i * dynSize)

/-- what the first `n` dynamic entries say -/
def noted (data : File) (dynOff : ℕ) : ℕ → DynInfo
  | 0 => DynInfo.none
  | n + 1 => (noted data dynOff n).note (dynEntry data dynOff n)

/-- the dynamic entries end after `n` of them, with `DT_NULL` or with the segment -/
def DynEnds (dynOff count n : ℕ) : Prop :=
  n ≤ count ∧ (∀ j < n, dynOff + (j + 1) * dynSize ≤ data.len ∧ (dynEntry data dynOff j).dTag ≠ 0) ∧
    (n = count ∨ dynOff + (n + 1) * dynSize ≤ data.len ∧ (dynEntry data dynOff n).dTag = 0)

/-- the file says `info` about its relocations -/
def Says (info : DynInfo) : Prop :=
  (∃ d n, IsDynamic data h d ∧
    DynEnds data (entry data h d).pOffset.toNat ((entry data h d).pFilesz.toNat / dynSize) n ∧
      info = noted data (entry data h d).pOffset.toNat n) ∨
    (∀ d < h.ePhnum.toNat, (entry data h d).pType ≠ ptDynamic) ∧ info = DynInfo.none

/-- entry `i` covers the address -/
def Covers (vaddr i : ℕ) : Prop :=
  (entry data h i).pVaddr.toNat ≤ vaddr ∧ vaddr < (entry data h i).pVaddr.toNat + (entry data h i).pMemsz.toNat
  deriving Decidable

def EndsInSpace (i : ℕ) : Prop :=
  (entry data h i).pVaddr.toNat + (entry data h i).pMemsz.toNat < 2 ^ 64
  deriving Decidable

/-- entry `i` is the one in which `vaddr_to_offset` finds the address -/
def Holds (vaddr i : ℕ) : Prop :=
  (i < h.ePhnum.toNat ∧ (entry data h i).pType = ptLoad ∧ EndsInSpace data h i ∧ Covers data h vaddr i) ∧
    ∀ j < i, (entry data h j).pType = ptLoad → EndsInSpace data h j ∧ ¬ Covers data h vaddr j

/-- the offset of the address in the file -/
def fileOff (vaddr i : ℕ) : ℕ :=
  (entry data h i).pOffset.toNat + (vaddr - (entry data h i).pVaddr.toNat)

/-- relocation `j` is in the file and, if it is relative, writes to a loaded range -/
def RelocAccepted (bias relaOff ent j : ℕ) : Prop :=
  let rela := relaAt data (relaOff + j * ent)
  let vaddr := (bias + rela.rOffset.toNat) % 2 ^ 64
  relaOff + j * ent + relaSize ≤ data.len ∧
    (rela.rInfo.toNat % 2 ^ 32 = rX86_64Relative → vaddr + 8 < 2 ^ 64 ∧
      ∃ i < h.ePhnum.toNat, Loads data h i ∧ loadStart data h bias i ≤ vaddr ∧
        vaddr + 8 ≤ loadEnd data h bias i)

/-- each relocation that the loop comes to and that is in the file is aligned -/
def RelocsAligned (bias relaOff ent count : ℕ) : Prop :=
  ∀ i < count, (∀ j < i, RelocAccepted data h bias relaOff ent j) → relaOff + i * ent + relaSize ≤ data.len →
    (data.addr + (relaOff + i * ent)) % 8 = 0

/-- what the relocation code needs -/
def Relocatable (bias : ℕ) : Prop :=
  RangesFit data h bias →
    (∀ d, IsDynamic data h d → dynSize ≤ (entry data h d).pFilesz.toNat →
      FirstReadable data (entry data h d).pOffset.toNat dynSize) ∧
    ∀ info addr size, Says data h info → info.relaAddr = some addr → info.relaSize = some size →
      relaSize ≤ info.relaEnt.getD relaSize → size % info.relaEnt.getD relaSize = 0 →
      ∀ i, Holds data h addr i → fileOff data h addr i < 2 ^ 64 ∧ (fileOff data h addr i < data.len →
        RelocsAligned data h bias (fileOff data h addr i) (info.relaEnt.getD relaSize)
          (size / info.relaEnt.getD relaSize))

/-- what the loader needs of a file; the clause on `vaddr_to_offset` (`fileOff`) is needed only if a segment of 2^63 bytes
can be mapped -/
def Loadable (random : ℕ) : Prop :=
  let h := ehdr data
  64 ≤ data.len → data.addr % 8 = 0 ∧ (validHeader h = true →
    (h.ePhnum ≠ 0 → FirstReadable data h.ePhoff.toNat phdrSize) ∧
      ((∀ i < h.ePhnum.toNat, EntryAccepted data h i) → h.eType = etDyn → Relocatable data h (pieLoadBias random)))

/-! ## Reads -/

section

variable {α : Type} {data : File} {offset size : ℕ} {v w : α}

theorem safe_deref : Safe (deref data offset size v) ↔ FirstReadable data offset size := by
  unfold deref FirstReadable
  rw [safe_bind, safe_add]
  refine and_congr_right fun hlt => ?_
  rw [add_eq hlt]
  simp only [Exec.ok.injEq, forall_eq']
  split_ifs with hlen hal
  · exact ⟨fun _ h => absurd h (Nat.not_le.2 hlen), fun _ => safe_absent⟩
  · exact ⟨fun h => absurd h (not_safe_stop _), fun h => absurd (h (Nat.not_lt.1 hlen)) hal⟩
  · exact ⟨fun _ _ => not_not.1 hal, fun _ => safe_ok _⟩

theorem deref_eq (hlen : offset + size ≤ data.len) (hal : (data.addr + offset) % 8 = 0) :
    deref data offset size v = .ok v := by
  have := data.len_lt
  rw [deref, add_eq (by omega), Exec.ok_bind, if_neg (by omega), if_neg (not_not.2 hal)]
  rfl

theorem deref_ok (h : deref data offset size v = .ok w) :
    offset + size ≤ data.len ∧ (data.addr + offset) % 8 = 0 ∧ w = v := by
  obtain ⟨hlt, hal⟩ := safe_deref.1 (h ▸ safe_ok w)
  by_cases hlen : offset + size ≤ data.len
  · rw [deref_eq hlen (hal hlen)] at h
    exact ⟨hlen, hal hlen, (Exec.ok.inj h).symm⟩
  · rw [deref, add_eq hlt, Exec.ok_bind, if_pos (Nat.not_le.1 hlen)] at h
    cases h

end

/-! ## Program headers -/

section Entries

variable {data : File} {h : Elf64Ehdr} {i : ℕ}

section

variable (hsize : h.ePhentsize.toNat = phdrSize) (hi : i < h.ePhnum.toNat)

include hsize hi

theorem phdrOffset_eq : phdrOffset h i =
      if h.ePhoff.toNat + i * phdrSize < 2 ^ 64 then some (h.ePhoff.toNat + i * phdrSize) else none := by
  have hmul := @mul_lt_of_toNat i h.ePhnum h.ePhentsize hi
  have hx : i * phdrSize < 2 ^ 64 := by
    rw [← hsize]
    omega
  rw [phdrOffset, hsize]
  simp only [hx, true_and]

theorem readEntry_eq (hin : h.ePhoff.toNat + i * phdrSize + phdrSize ≤ data.len) (hal : (data.addr + h.ePhoff.toNat) % 8 = 0) :
    readEntry data h i = .ok (entry data h i) := by
  have hlen := data.len_lt
  rw [readEntry, phdrOffset_eq hsize hi, if_pos (by omega)]
  refine deref_eq hin ?_
  unfold phdrSize
  omega

theorem readEntry_ok {ph : Elf64Phdr} (hread : readEntry data h i = .ok ph) :
    h.ePhoff.toNat + i * phdrSize + phdrSize ≤ data.len ∧ (data.addr + h.ePhoff.toNat) % 8 = 0 ∧
      ph = entry data h i := by
  rw [readEntry, phdrOffset_eq hsize hi] at hread
  split_ifs at hread with hlt
  obtain ⟨hin, hal, hph⟩ := deref_ok hread
  refine ⟨hin, ?_, hph⟩
  unfold phdrSize at hal
  omega

/-- the first read decides about all the others -/
theorem safe_readEntry (hfirst : 0 < i → ∃ ph, readEntry data h 0 = .ok ph) :
    Safe (readEntry data h i) ↔ (i = 0 → FirstReadable data h.ePhoff.toNat phdrSize) := by
  cases i with
  | zero =>
    have hlt : h.ePhoff.toNat + 0 * phdrSize < 2 ^ 64 := by
      have := h.ePhoff.toNat_lt
      omega
    rw [readEntry, phdrOffset_eq hsize hi, if_pos hlt]
    dsimp only [readPhdr]
    rw [safe_deref, Nat.zero_mul, Nat.add_zero]
    simp
  | succ i =>
    obtain ⟨ph, hph⟩ := hfirst (Nat.succ_pos i)
    obtain ⟨hin, hal, -⟩ := readEntry_ok hsize (by omega) hph
    have hmul := @mul_lt_of_toNat (i + 1) h.ePhnum h.ePhentsize hi
    have hlen := data.len_lt
    rw [hsize] at hmul
    rw [readEntry, phdrOffset_eq hsize hi]
    refine ⟨fun _ h0 => absurd h0 (Nat.succ_ne_zero i), fun _ => ?_⟩
    rw [if_pos (by omega)]
    dsimp only [readPhdr]
    rw [safe_deref]
    unfold phdrSize at hin hmul ⊢
    exact ⟨by omega, fun _ => by omega⟩

end

end Entries

/-! ## The loop over the segments -/

section Load

variable {σ : Type} {ops : PageTableOps σ} {table bias i : ℕ} {data : File} {h : Elf64Ehdr} {s t : σ}

theorem ends_loadTurn (hops : ops.Total) :
    Ends (loadTurn ops table data h bias i) s ↔ Safe (readEntry data h i) := by
  rw [loadTurn, ends_bind, ends_checked]
  refine and_iff_left fun ph u _ => ?_
  split_ifs with _ _ _ hsrc _
  · exact ends_pure _ _
  · exact ends_pure _ _
  · exact ends_fail _ _
  · exact ends_fail _ _
  · rw [slice_eq (Nat.le_add_right _ _) (Nat.not_lt.1 hsrc)]
    exact ends_fail _ _
  · rw [slice_eq (Nat.le_add_right _ _) (Nat.not_lt.1 hsrc)]
    exact hops.map _ _ _ _ _ _ _ _

/-- a turn that ends well has accepted its entry -/
theorem accepted_of_loadTurn (hsize : h.ePhentsize.toNat = phdrSize) (hi : i < h.ePhnum.toNat)
    (hturn : loadTurn ops table data h bias i s = (.ok (), t)) :
    EntryAccepted data h i ∧ (data.addr + h.ePhoff.toNat) % 8 = 0 := by
  obtain ⟨ph, u, hchecked, hturn⟩ := bind_eq_ok.1 hturn
  obtain ⟨hin, hal, rfl⟩ := readEntry_ok hsize hi (checked_eq_ok.1 hchecked).1
  refine ⟨⟨hin, fun htype hmem => ?_⟩, hal⟩
  rw [if_neg (not_not_intro htype), if_neg hmem] at hturn
  by_cases hfile : (entry data h i).pMemsz < (entry data h i).pFilesz
  · rw [if_pos hfile] at hturn
    cases hturn
  rw [if_neg hfile] at hturn
  by_cases hsrc : data.len < (entry data h i).pOffset.toNat + (entry data h i).pFilesz.toNat
  · rw [if_pos hsrc] at hturn
    cases hturn
  refine ⟨UInt64.not_lt.1 hfile, Nat.not_lt.1 hsrc, fun hwx => ?_⟩
  rw [if_neg hsrc] at hturn
  obtain ⟨src, v, -, hturn⟩ := bind_eq_ok.1 hturn
  rw [if_pos hwx] at hturn
  cases hturn

/-- the loop returns iff the first entry can be read -/
theorem ends_loadLoop (hops : ops.Total) (hsize : h.ePhentsize.toNat = phdrSize) :
    Ends (M.forRange (loadTurn ops table data h bias) h.ePhnum.toNat 0) s ↔
      (h.ePhnum ≠ 0 → FirstReadable data h.ePhoff.toNat phdrSize) := by
  rw [ends_forRange]
  constructor
  · intro hall hnum
    have hpos := toNat_pos_iff.2 hnum
    have hfirst := (ends_loadTurn hops).1 (hall 0 hpos s rfl)
    exact (safe_readEntry hsize hpos (by simp)).1 hfirst rfl
  · intro hfirst k hk u hpass
    rw [Nat.zero_add, ends_loadTurn hops, safe_readEntry hsize hk]
    · exact fun _ => hfirst (toNat_pos_iff.1 (by omega))
    · intro hpos
      obtain ⟨u', v', hturn⟩ := forRange_turns hpass 0 hpos
      obtain ⟨hacc, hal⟩ := accepted_of_loadTurn hsize (by omega) hturn
      exact ⟨_, readEntry_eq hsize (by omega) hacc.1 hal⟩

end Load

/-! ## The parts of the relocation code

Once the loop over the segments is through, every program header can be read. -/

section Parts

variable {data : File} {h : Elf64Ehdr} {bias i : ℕ}

/-- every program header can be read -/
def AllRead (data : File) (h : Elf64Ehdr) : Prop := ∀ i < h.ePhnum.toNat, readEntry data h i = .ok (entry data h i)

/-- the ranges of the first `n` entries -/
def loadRanges (data : File) (h : Elf64Ehdr) (bias : ℕ) : ℕ → List (ℕ × ℕ)
  | 0 => []
  | n + 1 =>
    if Loads data h n then
      loadRanges data h bias n ++ [(loadStart data h bias n, loadEnd data h bias n)]
    else loadRanges data h bias n

variable {n : ℕ}

theorem mem_loadRanges {r : ℕ × ℕ} : r ∈ loadRanges data h bias n ↔
    ∃ i < n, Loads data h i ∧ r = (loadStart data h bias i, loadEnd data h bias i) := by
  induction n with
  | zero => simp [loadRanges]
  | succ n ih =>
    rw [loadRanges, Nat.exists_lt_succ_right]
    split_ifs with hl
    · rw [List.mem_append, ih, List.mem_singleton, and_iff_right hl]
    · rw [ih, or_iff_left fun hr => hl hr.1]

theorem rangeTurn_eq (hread : readEntry data h i = .ok (entry data h i)) (ranges : List (ℕ × ℕ)) :
    rangeTurn data h bias i ranges =
      if Loads data h i then
        if RangeFits data h bias i then .ok (.inl (ranges ++ [(loadStart data h bias i, loadEnd data h bias i)]))
        else .absent
      else .ok (.inl ranges) := by
  rw [rangeTurn, hread, Exec.ok_bind]
  by_cases hl : Loads data h i
  · rw [if_pos hl, if_neg (by simpa [Loads] using hl)]
    split_ifs with hfit
    · exact if_neg (Nat.not_le.2 hfit)
    · exact if_pos (Nat.not_lt.1 hfit)
  · rw [if_neg hl, if_pos (by rw [Loads, not_and_or, not_not] at hl; exact hl)]
    rfl

/-- the loop over the ranges never panics, and gets through if they fit the address space -/
theorem ranges_eq (hread : AllRead data h) (hn : n ≤ h.ePhnum.toNat) :
    (∀ r, forRange (rangeTurn data h bias) n 0 [] = .ok (.inl r) ↔
      (∀ i < n, Loads data h i → RangeFits data h bias i) ∧ r = loadRanges data h bias n) := by
  induction n with
  | zero => simp [forRange, loadRanges, eq_comm]
  | succ n ih =>
    intro r
    rw [forRange_succ_iff, Nat.zero_add]
    simp only [ih (by omega), Nat.forall_lt_succ_right, rangeTurn_eq (hread n (by omega)), loadRanges]
    by_cases hl : Loads data h n
    · by_cases hfit : RangeFits data h bias n
      · simp [hl, hfit, eq_comm]
      · simp [hl, hfit]
    · simp [hl, eq_comm]

theorem safe_ranges (hread : AllRead data h) :
    Safe (forRange (rangeTurn data h bias) h.ePhnum.toNat 0 []) := by
  rw [safe_forRange]
  intro k hk ranges _
  rw [Nat.zero_add, rangeTurn_eq (hread k hk)]
  split_ifs
  · exact safe_ok _
  · exact safe_absent
  · exact safe_ok _

/-! ### The dynamic section -/

theorem dynamicTurn_eq (hread : readEntry data h i = .ok (entry data h i)) :
    dynamicTurn data h i () =
      .ok (if (entry data h i).pType = ptDynamic then
        .inr ((entry data h i).pOffset.toNat, (entry data h i).pFilesz.toNat) else .inl ()) := by
  rw [dynamicTurn, hread]
  rfl

/-- `dynamic_file_range` finds the first dynamic segment, if there is one -/
theorem dynamic_cases (hread : AllRead data h) :
    (∃ d, IsDynamic data h d ∧ forRange (dynamicTurn data h) h.ePhnum.toNat 0 () =
        .ok (.inr ((entry data h d).pOffset.toNat, (entry data h d).pFilesz.toNat))) ∨
      (∀ d < h.ePhnum.toNat, (entry data h d).pType ≠ ptDynamic) ∧
        forRange (dynamicTurn data h) h.ePhnum.toNat 0 () = .ok (.inl ()) := by
  by_cases hex : ∃ d, d < h.ePhnum.toNat ∧ (entry data h d).pType = ptDynamic
  · have hfirst := Nat.find_spec hex
    have hbefore : ∀ j < Nat.find hex, (entry data h j).pType ≠ ptDynamic :=
      fun j hj htype => Nat.find_min hex hj ⟨hj.trans hfirst.1, htype⟩
    refine .inl ⟨Nat.find hex, ⟨hfirst, hbefore⟩, ?_⟩
    apply forRange_unit_break hfirst.1
    · intro j hj
      rw [dynamicTurn_eq (hread j (hj.trans hfirst.1)), if_neg (hbefore j hj)]
    · rw [dynamicTurn_eq (hread _ hfirst.1), if_pos hfirst.2]
  · push Not at hex
    refine .inr ⟨hex, forRange_unit_iff.2 fun j hj => ?_⟩
    rw [dynamicTurn_eq (hread j hj), if_neg (hex j hj)]

theorem IsDynamic.unique {d d' : ℕ} (hd : IsDynamic data h d) (hd' : IsDynamic data h d') : d = d' := by
  rcases lt_trichotomy d d' with hlt | heq | hlt
  · exact absurd hd.1.2 (hd'.2 d hlt)
  · exact heq
  · exact absurd hd'.1.2 (hd.2 d' hlt)

section DynamicEntries

variable {dynOff : ℕ} {info : DynInfo}

theorem dynTurn_eq (hin : dynOff + i * dynSize + dynSize ≤ data.len) (hal : (data.addr + dynOff) % 8 = 0) :
    dynTurn data dynOff i info =
      .ok (if (dynEntry data dynOff i).dTag = 0 then .inr info else .inl (info.note (dynEntry data dynOff i))) := by
  have hlen := data.len_lt
  unfold dynSize at hin
  rw [dynTurn, dynSize, mul_eq (by omega), Exec.ok_bind, add_eq (by omega), Exec.ok_bind, readDyn,
    deref_eq (by unfold dynSize; omega) (by omega)]
  rfl

theorem dynTurn_ok {r : DynInfo ⊕ DynInfo} (hturn : dynTurn data dynOff i info = .ok r) :
    dynOff + i * dynSize + dynSize ≤ data.len ∧ (data.addr + dynOff) % 8 = 0 := by
  obtain ⟨x, hx, hturn⟩ := Exec.bind_eq_ok.1 hturn
  obtain ⟨off, hoff, hturn⟩ := Exec.bind_eq_ok.1 hturn
  obtain ⟨d, hd, -⟩ := Exec.bind_eq_ok.1 hturn
  obtain ⟨hin, hal, -⟩ := deref_ok hd
  rw [Exec.eq_of_add_ok hoff, Exec.eq_of_mul_ok hx] at hin hal
  refine ⟨hin, ?_⟩
  unfold dynSize at hal
  omega

/-- the loop gets through `n` entries iff they are in the file, aligned and none is `DT_NULL` -/
theorem dynLoop_iff : forRange (dynTurn data dynOff) n 0 DynInfo.none = .ok (.inl info) ↔
    (0 < n → (data.addr + dynOff) % 8 = 0) ∧
      (∀ j < n, dynOff + (j + 1) * dynSize ≤ data.len ∧ (dynEntry data dynOff j).dTag ≠ 0) ∧
      info = noted data dynOff n := by
  induction n generalizing info with
  | zero => simp [forRange, noted, eq_comm]
  | succ n ih =>
    rw [forRange_succ_iff, Nat.zero_add]
    constructor
    · rintro ⟨info', hpass, hturn⟩
      obtain ⟨-, hall, rfl⟩ := ih.1 hpass
      obtain ⟨hin, hal⟩ := dynTurn_ok hturn
      rw [dynTurn_eq hin hal] at hturn
      split_ifs at hturn with htag
      · cases hturn
      · refine ⟨fun _ => hal, Nat.forall_lt_succ_right.2 ⟨hall, by rwa [Nat.succ_mul, ← Nat.add_assoc], htag⟩, ?_⟩
        exact (Sum.inl.inj (Exec.ok.inj hturn)).symm
    · rintro ⟨hal, hall, rfl⟩
      obtain ⟨hbefore, hin, htag⟩ := Nat.forall_lt_succ_right.1 hall
      have hal' := hal (Nat.succ_pos n)
      refine ⟨noted data dynOff n, ih.2 ⟨fun _ => hal', hbefore, rfl⟩, ?_⟩
      rw [Nat.succ_mul, ← Nat.add_assoc] at hin
      rw [dynTurn_eq hin hal', if_neg htag]
      rfl

/-- the loop over the dynamic entries is safe iff the first one can be read -/
theorem safe_dynLoop {count : ℕ} (hoff : dynOff < 2 ^ 64) :
    Safe (forRange (dynTurn data dynOff) count 0 DynInfo.none) ↔ (0 < count → FirstReadable data dynOff dynSize) := by
  have hlen := data.len_lt
  have hturn : ∀ i < count, ∀ info, dynOff + i * dynSize < 2 ^ 64 →
      (Safe (dynTurn data dynOff i info) ↔ FirstReadable data (dynOff + i * dynSize) dynSize) := by
    intro i hi info hlt
    have hx : i * dynSize < 2 ^ 64 := by omega
    rw [dynTurn, mul_eq hx, Exec.ok_bind, add_eq hlt, Exec.ok_bind, safe_bind, readDyn, safe_deref]
    exact and_iff_left fun _ _ => safe_ok _
  rw [safe_forRange]
  constructor
  · intro hall hpos
    have hfirst := (hturn 0 hpos DynInfo.none (by omega)).1 (hall 0 hpos DynInfo.none rfl)
    rwa [Nat.zero_mul, Nat.add_zero] at hfirst
  · intro hfirst k hk info hpass
    rw [Nat.zero_add]
    cases k with
    | zero =>
      rw [hturn 0 hk info (by omega), Nat.zero_mul, Nat.add_zero]
      exact hfirst hk
    | succ k =>
      obtain ⟨hal, hall, -⟩ := dynLoop_iff.1 hpass
      have hbefore := (hall k (Nat.lt_succ_self k)).1
      have hal' := hal (Nat.succ_pos k)
      rw [hturn (k + 1) hk info (by omega)]
      unfold dynSize at hbefore ⊢
      exact ⟨by omega, fun _ => by omega⟩

/-- and when it ends, it has noted the entries up to `DT_NULL` -/
theorem dynLoop_ends {count : ℕ} (hfirst : 0 < count → FirstReadable data dynOff dynSize) :
    (∃ r, forRange (dynTurn data dynOff) count 0 DynInfo.none = .ok r ∧ r.elim id id = info) ↔
      ∃ n, DynEnds data dynOff count n ∧ info = noted data dynOff n := by
  constructor
  · rintro ⟨r | r, hr, rfl⟩
    · obtain ⟨-, hall, rfl⟩ := dynLoop_iff.1 hr
      exact ⟨count, ⟨le_rfl, hall, .inl rfl⟩, rfl⟩
    · obtain ⟨k, hk, t, hpass, hturn⟩ := forRange_eq_break.1 hr
      obtain ⟨-, hall, rfl⟩ := dynLoop_iff.1 hpass
      rw [Nat.zero_add] at hturn
      obtain ⟨hin, hal⟩ := dynTurn_ok hturn
      rw [dynTurn_eq hin hal] at hturn
      split_ifs at hturn with htag
      · refine ⟨k, ⟨hk.le, hall, .inr ⟨by rwa [Nat.succ_mul, ← Nat.add_assoc], htag⟩⟩, ?_⟩
        exact (Sum.inr.inj (Exec.ok.inj hturn)).symm
      · cases hturn
  · rintro ⟨n, ⟨hle, hall, hend⟩, rfl⟩
    -- an entry in the file is aligned, for the first one is
    have hal : ∀ j < count, dynOff + (j + 1) * dynSize ≤ data.len → (data.addr + dynOff) % 8 = 0 := by
      intro j hj hin
      refine (hfirst (by omega)).2 ?_
      unfold dynSize at hin ⊢
      omega
    have hpass : forRange (dynTurn data dynOff) n 0 DynInfo.none = .ok (.inl (noted data dynOff n)) :=
      dynLoop_iff.2 ⟨fun hpos => hal 0 (by omega) (hall 0 hpos).1, hall, rfl⟩
    rcases hle.lt_or_eq with hlt | rfl
    · obtain rfl | ⟨hin, htag⟩ := hend
      · exact absurd hlt (lt_irrefl _)
      · refine ⟨.inr (noted data dynOff n), forRange_eq_break.2 ⟨n, hlt, _, hpass, ?_⟩, rfl⟩
        have hal' := hal n hlt hin
        rw [Nat.succ_mul, ← Nat.add_assoc] at hin
        rw [Nat.zero_add, dynTurn_eq hin hal', if_pos htag]
    · exact ⟨_, hpass, rfl⟩

end DynamicEntries

/-- the first entry of the dynamic segment can be read -/
def DynReadable (data : File) (h : Elf64Ehdr) : Prop :=
  ∀ d, IsDynamic data h d → dynSize ≤ (entry data h d).pFilesz.toNat →
    FirstReadable data (entry data h d).pOffset.toNat dynSize

/-- `dynInfo` is safe in that case only, and then finds what the file says -/
theorem safe_dynInfo (hread : AllRead data h) : Safe (dynInfo data h) ↔ DynReadable data h := by
  rcases dynamic_cases hread with ⟨d, hd, hloop⟩ | ⟨hnone, hloop⟩
  · have hcount : 0 < (entry data h d).pFilesz.toNat / dynSize ↔ dynSize ≤ (entry data h d).pFilesz.toNat :=
      Nat.div_pos_iff.trans (by simp [dynSize])
    rw [dynInfo, hloop, Exec.ok_bind]
    dsimp only
    rw [safe_bind, safe_dynLoop (entry data h d).pOffset.toNat_lt, hcount]
    exact ⟨fun hsafe d' hd' => hd'.unique hd ▸ hsafe.1, fun hall => ⟨hall d hd, fun _ _ => safe_ok _⟩⟩
  · rw [dynInfo, hloop]
    exact ⟨fun _ d hd => absurd hd.1.2 (hnone d hd.1.1), fun _ => safe_ok _⟩

theorem dynInfo_iff (hread : AllRead data h) (hfirst : DynReadable data h) {info : DynInfo} :
    dynInfo data h = .ok info ↔ Says data h info := by
  rcases dynamic_cases hread with ⟨d, hd, hloop⟩ | ⟨hnone, hloop⟩
  · have hends := @dynLoop_ends data (entry data h d).pOffset.toNat info ((entry data h d).pFilesz.toNat / dynSize)
      fun hpos => hfirst d hd ((Nat.div_pos_iff.1 hpos).2)
    have hinfo : dynInfo data h = .ok info ↔ ∃ r, forRange (dynTurn data (entry data h d).pOffset.toNat)
        ((entry data h d).pFilesz.toNat / dynSize) 0 DynInfo.none = .ok r ∧ r.elim id id = info := by
      rw [dynInfo, hloop, Exec.ok_bind]
      dsimp only
      rw [Exec.bind_eq_ok]
      simp
    rw [hinfo, hends]
    constructor
    · rintro ⟨n, hn, hnoted⟩
      exact .inl ⟨d, n, hd, hn, hnoted⟩
    · rintro (⟨d', n, hd', hn, hnoted⟩ | ⟨hnone, -⟩)
      · rw [hd'.unique hd] at hn hnoted
        exact ⟨n, hn, hnoted⟩
      · exact absurd hd.1.2 (hnone d hd.1.1)
  · rw [dynInfo, hloop, Exec.ok_bind]
    constructor
    · intro hok
      exact .inr ⟨hnone, (Exec.ok.inj hok).symm⟩
    · rintro (⟨d, n, hd, -⟩ | ⟨-, rfl⟩)
      · exact absurd hd.1.2 (hnone d hd.1.1)
      · rfl

/-! ### Addresses and offsets -/

/-- a segment that ends in the address space and covers the address -/
def Hits (data : File) (h : Elf64Ehdr) (vaddr i : ℕ) : Prop :=
  (entry data h i).pType = ptLoad ∧ EndsInSpace data h i ∧ Covers data h vaddr i

variable {vaddr : ℕ}

section

variable (hread : readEntry data h i = .ok (entry data h i))

include hread

theorem offsetTurn_hit (hhit : Hits data h vaddr i) : offsetTurn data h vaddr i () =
      if 2 ^ 64 ≤ fileOff data h vaddr i then .stop .overflow
      else if data.len ≤ fileOff data h vaddr i then .absent
      else .ok (.inr (fileOff data h vaddr i)) := by
  obtain ⟨htype, hends, hcov⟩ := hhit
  rw [offsetTurn, hread, Exec.ok_bind, if_neg (not_not_intro htype), if_neg (Nat.not_le.2 hends)]
  refine (if_pos hcov).trans ?_
  rw [Exec.sub_eq hcov.1, Exec.ok_bind, add, ← fileOff]
  by_cases hover : 2 ^ 64 ≤ fileOff data h vaddr i
  · rw [if_pos hover, if_neg (Nat.not_lt.2 hover)]
    rfl
  · rw [if_neg hover, if_pos (Nat.not_le.1 hover), Exec.ok_bind]
    rfl

/-- any other segment is passed, or ends the search if it wraps around -/
theorem offsetTurn_miss (hmiss : ¬ Hits data h vaddr i) : offsetTurn data h vaddr i () =
      if (entry data h i).pType = ptLoad ∧ ¬ EndsInSpace data h i then .absent else .ok (.inl ()) := by
  rw [offsetTurn, hread, Exec.ok_bind]
  by_cases htype : (entry data h i).pType = ptLoad
  swap
  · rw [if_pos htype, if_neg fun hw => htype hw.1]
    rfl
  rw [if_neg (not_not_intro htype)]
  by_cases hends : EndsInSpace data h i
  · rw [if_neg (Nat.not_le.2 hends)]
    exact (if_neg fun hcov => hmiss ⟨htype, hends, hcov⟩).trans (if_neg fun hw => hw.2 hends).symm
  · rw [if_pos (Nat.not_lt.1 hends), if_pos ⟨htype, hends⟩]

theorem offsetTurn_goes_on : offsetTurn data h vaddr i () = .ok (.inl ()) ↔
      ((entry data h i).pType = ptLoad → EndsInSpace data h i ∧ ¬ Covers data h vaddr i) := by
  by_cases hhit : Hits data h vaddr i
  · rw [offsetTurn_hit hread hhit]
    refine ⟨fun hgo => ?_, fun hall => absurd hhit.2.2 (hall hhit.1).2⟩
    split_ifs at hgo
    cases hgo
  · rw [offsetTurn_miss hread hhit]
    split_ifs with hwrap
    · exact ⟨fun hgo => (nomatch hgo), fun hall => absurd (hall hwrap.1).1 hwrap.2⟩
    · refine ⟨fun _ htype => ?_, fun _ => rfl⟩
      have hends := not_not.1 fun hends => hwrap ⟨htype, hends⟩
      exact ⟨hends, fun hcov => hhit ⟨htype, hends, hcov⟩⟩

end

variable (hread : AllRead data h)

include hread

theorem offset_passes_iff (hi : i ≤ h.ePhnum.toNat) : (∀ j < i, offsetTurn data h vaddr j () = .ok (.inl ())) ↔
      ∀ j < i, (entry data h j).pType = ptLoad → EndsInSpace data h j ∧ ¬ Covers data h vaddr j :=
  forall₂_congr fun j hj => offsetTurn_goes_on (hread j (by omega))

/-- `vaddr_to_offset` panics iff the offset in the segment that holds the address is past the address space -/
theorem safe_vaddrToOffset :
    Safe (vaddrToOffset data h vaddr) ↔ ∀ i, Holds data h vaddr i → fileOff data h vaddr i < 2 ^ 64 := by
  have hrest : ∀ r : Unit ⊕ ℕ, Safe (match r with
      | .inl _ => (.absent : Exec ℕ)
      | .inr off => return off) := by
    rintro (_ | off)
    · exact safe_absent
    · exact safe_ok _
  rw [vaddrToOffset, safe_bind, safe_forRange_unit]
  constructor
  · rintro ⟨hsafe, -⟩ i ⟨⟨hi, hhit⟩, hbefore⟩
    have hturn := hsafe i hi ((offset_passes_iff hread hi.le).2 hbefore)
    rw [offsetTurn_hit (hread i hi) hhit] at hturn
    by_contra hover
    rw [if_pos (Nat.not_lt.1 hover)] at hturn
    exact not_safe_stop _ hturn
  · intro hall
    refine ⟨fun i hi hpass => ?_, fun r _ => hrest r⟩
    have hbefore := (offset_passes_iff hread hi.le).1 hpass
    by_cases hhit : Hits data h vaddr i
    · rw [offsetTurn_hit (hread i hi) hhit, if_neg (Nat.not_le.2 (hall i ⟨⟨hi, hhit⟩, hbefore⟩))]
      split_ifs
      · exact safe_absent
      · exact safe_ok _
    · rw [offsetTurn_miss (hread i hi) hhit]
      split_ifs
      · exact safe_absent
      · exact safe_ok _

theorem vaddrToOffset_iff {off : ℕ} : vaddrToOffset data h vaddr = .ok off ↔
      ∃ i, Holds data h vaddr i ∧ off = fileOff data h vaddr i ∧ off < data.len := by
  have hlen := data.len_lt
  have hloop : vaddrToOffset data h vaddr = .ok off ↔
      forRange (offsetTurn data h vaddr) h.ePhnum.toNat 0 () = .ok (.inr off) := by
    rw [vaddrToOffset, Exec.bind_eq_ok]
    constructor
    · rintro ⟨r | r, hr, hok⟩
      · cases hok
      · rw [hr, Exec.ok.inj hok]
    · intro hr
      exact ⟨_, hr, rfl⟩
  rw [hloop, forRange_eq_break]
  constructor
  · rintro ⟨i, hi, t, hpass, hturn⟩
    have hbefore := (offset_passes_iff hread hi.le).1 (forRange_unit_iff.1 hpass)
    rw [Nat.zero_add] at hturn
    by_cases hhit : Hits data h vaddr i
    · rw [offsetTurn_hit (hread i hi) hhit] at hturn
      split_ifs at hturn with hover hin
      have heq : fileOff data h vaddr i = off := Sum.inr.inj (Exec.ok.inj hturn)
      exact ⟨i, ⟨⟨hi, hhit⟩, hbefore⟩, heq.symm, by omega⟩
    · rw [offsetTurn_miss (hread i hi) hhit] at hturn
      split_ifs at hturn
      cases hturn
  · rintro ⟨i, ⟨⟨hi, hhit⟩, hbefore⟩, rfl, hin⟩
    refine ⟨i, hi, (), forRange_unit_iff.2 ((offset_passes_iff hread hi.le).2 hbefore), ?_⟩
    rw [Nat.zero_add, offsetTurn_hit (hread i hi) hhit, if_neg (by omega), if_neg (by omega)]

end Parts

/-! ## The loop over the relocations -/

/-- paging code that does nothing and never fails -/
def obliging : PageTableOps Unit where
  createUserPageTable := pure 0
  destroyUserPageTable _ := pure ()
  mapAndCopySegmentTo _ _ _ _ _ _ _ := pure ()
  copyToUserInTable _ _ _ := pure ()
  allocUserStackInTable _ _ := pure (0, 0)

theorem obliging_total : obliging.Total where
  create _ := ends_pure _ _
  destroy _ _ := ends_pure _ _
  map _ _ _ _ _ _ _ _ := ends_pure _ _
  copy _ _ _ _ := ends_pure _ _
  stack _ _ _ := ends_pure _ _

section Relocate

variable {σ : Type} {ops : PageTableOps σ} {table bias relaOff ent i : ℕ} {data : File} {h : Elf64Ehdr} {s t : σ}

/-- the read of relocation `i` -/
def readReloc (data : File) (relaOff ent i : ℕ) : Exec Elf64Rela := do
  let x ← mul 64 i ent
  let off ← add 64 relaOff x
  readRela data off

theorem readReloc_ok {rela : Elf64Rela} (hread : readReloc data relaOff ent i = .ok rela) :
    relaOff + i * ent + relaSize ≤ data.len ∧ (data.addr + (relaOff + i * ent)) % 8 = 0 ∧
      rela = relaAt data (relaOff + i * ent) := by
  obtain ⟨x, hx, hread⟩ := Exec.bind_eq_ok.1 hread
  obtain ⟨off, hoff, hread⟩ := Exec.bind_eq_ok.1 hread
  rw [Exec.eq_of_add_ok hoff, Exec.eq_of_mul_ok hx] at hread
  exact deref_ok hread

theorem readReloc_eq (hin : relaOff + i * ent + relaSize ≤ data.len)
    (hal : (data.addr + (relaOff + i * ent)) % 8 = 0) :
    readReloc data relaOff ent i = .ok (relaAt data (relaOff + i * ent)) := by
  have hlen := data.len_lt
  rw [readReloc, mul_eq (by omega), Exec.ok_bind, add_eq (by omega), Exec.ok_bind]
  exact deref_eq hin hal

/-- no offset overflows: two relocations or more are at most half the address space apart -/
theorem safe_readReloc {count : ℕ} (hstart : relaOff < data.len) (hcount : count * ent < 2 ^ 64) (hi : i < count)
    (hbefore : 0 < i → relaOff + (i - 1) * ent + relaSize ≤ data.len) :
    Safe (readReloc data relaOff ent i) ↔
      (relaOff + i * ent + relaSize ≤ data.len → (data.addr + (relaOff + i * ent)) % 8 = 0) := by
  have hlen := data.len_lt
  have hlt : relaOff + i * ent + relaSize < 2 ^ 64 := by
    cases i with
    | zero =>
      unfold relaSize
      omega
    | succ i =>
      have hprev := hbefore (Nat.succ_pos i)
      have htwo : 2 * ent ≤ count * ent := Nat.mul_le_mul_right _ (by omega)
      rw [Nat.succ_sub_one] at hprev
      rw [Nat.succ_mul]
      omega
  have hmul : i * ent < 2 ^ 64 := by omega
  have hadd : relaOff + i * ent < 2 ^ 64 := by omega
  rw [readReloc, mul_eq hmul, Exec.ok_bind, add_eq hadd, Exec.ok_bind, readRela, safe_deref]
  exact and_iff_right hlt

theorem ends_relocTurn (hops : ops.Total) (ranges : List (ℕ × ℕ)) :
    Ends (relocTurn ops table data bias ranges relaOff ent i) s ↔ Safe (readReloc data relaOff ent i) := by
  rw [relocTurn, ends_bind, ends_checked]
  refine and_iff_left fun rela u _ => ?_
  dsimp only
  split_ifs
  · exact ends_fail _ _
  · exact hops.copy _ _ _ _
  · exact ends_fail _ _
  · exact ends_pure _ _

/-- the range check of a relocation, in terms of the entries -/
theorem any_loadRanges {n v : ℕ} :
    (loadRanges data h bias n).any (fun r => r.1 ≤ v ∧ v + 8 ≤ r.2) = true ↔
      ∃ i < n, Loads data h i ∧ loadStart data h bias i ≤ v ∧ v + 8 ≤ loadEnd data h bias i := by
  rw [List.any_eq_true]
  constructor
  · rintro ⟨r, hr, hin⟩
    obtain ⟨i, hi, hl, rfl⟩ := mem_loadRanges.1 hr
    exact ⟨i, hi, hl, by simpa using hin⟩
  · rintro ⟨i, hi, hl, hin⟩
    exact ⟨_, mem_loadRanges.2 ⟨i, hi, hl, rfl⟩, by simpa using hin⟩

/-- a turn that ends well has accepted its relocation -/
theorem accepted_of_relocTurn
    (hturn : relocTurn ops table data bias (loadRanges data h bias h.ePhnum.toNat) relaOff ent i s = (.ok (), t)) :
    RelocAccepted data h bias relaOff ent i := by
  obtain ⟨rela, u, hchecked, hturn⟩ := bind_eq_ok.1 hturn
  obtain ⟨hin, -, rfl⟩ := readReloc_ok (checked_eq_ok.1 hchecked).1
  refine ⟨hin, fun htype => ?_⟩
  rw [if_pos htype] at hturn
  by_cases hover : 2 ^ 64 ≤ (bias + (relaAt data (relaOff + i * ent)).rOffset.toNat) % 2 ^ 64 + 8
  · rw [if_pos hover] at hturn
    cases hturn
  rw [if_neg hover] at hturn
  refine ⟨Nat.not_le.1 hover, ?_⟩
  rw [← any_loadRanges]
  by_contra hany
  rw [if_neg hany] at hturn
  cases hturn

/-- with obliging paging code an accepted relocation that is aligned goes through -/
theorem relocTurn_obliging (hacc : RelocAccepted data h bias relaOff ent i)
    (hal : (data.addr + (relaOff + i * ent)) % 8 = 0) :
    relocTurn obliging table data bias (loadRanges data h bias h.ePhnum.toNat) relaOff ent i () = (.ok (), ()) := by
  obtain ⟨hin, hrel⟩ := hacc
  rw [relocTurn]
  refine (ok_bind (checked_eq_ok.2 ⟨readReloc_eq hin hal, rfl⟩) _).trans ?_
  by_cases htype : (relaAt data (relaOff + i * ent)).rInfo.toNat % 2 ^ 32 = rX86_64Relative
  · obtain ⟨hlt, hrange⟩ := hrel htype
    rw [if_pos htype]
    refine (congrFun (if_neg (Nat.not_le.2 hlt)) ()).trans ?_
    rw [if_pos (any_loadRanges.2 hrange)]
    rfl
  · rw [if_neg htype]
    rfl

/-- aligned relocations can be gone through -/
theorem ends_relocLoop (hops : ops.Total) {count : ℕ} (hstart : relaOff < data.len) (hcount : count * ent < 2 ^ 64)
    (hal : RelocsAligned data h bias relaOff ent count) :
    Ends (M.forRange (relocTurn ops table data bias (loadRanges data h bias h.ePhnum.toNat) relaOff ent) count 0)
      s := by
  rw [ends_forRange]
  intro k hk u hpass
  have hacc : ∀ j < k, RelocAccepted data h bias relaOff ent j := by
    intro j hj
    obtain ⟨u', v', hturn⟩ := forRange_turns hpass j hj
    rw [Nat.zero_add] at hturn
    exact accepted_of_relocTurn hturn
  rw [Nat.zero_add, ends_relocTurn hops, safe_readReloc hstart hcount hk]
  · exact hal k hk hacc
  · exact fun hpos => (hacc (k - 1) (by omega)).1

/-- and only those, with obliging paging code -/
theorem aligned_of_ends {count : ℕ} (hstart : relaOff < data.len) (hcount : count * ent < 2 ^ 64)
    (hends : Ends (M.forRange (relocTurn obliging table data bias (loadRanges data h bias h.ePhnum.toNat) relaOff ent)
      count 0) ()) : RelocsAligned data h bias relaOff ent count := by
  rw [ends_forRange] at hends
  intro i
  induction i using Nat.strong_induction_on with
  | _ i ih =>
    intro hi hacc hin
    have hpass : M.forRange (relocTurn obliging table data bias (loadRanges data h bias h.ePhnum.toNat) relaOff ent) i 0
        () = (.ok (), ()) := by
      apply forRange_still
      intro j hj
      rw [Nat.zero_add]
      apply relocTurn_obliging (hacc j hj)
      exact ih j hj (by omega) (fun k hk => hacc k (by omega)) (hacc j hj).1
    have hturn := hends i hi () hpass
    rw [Nat.zero_add, ends_relocTurn obliging_total, safe_readReloc hstart hcount hi] at hturn
    · exact hturn hin
    · exact fun hpos => (hacc (i - 1) (by omega)).1

end Relocate

/-! ## The relocation code as a whole -/

section Whole

variable {σ : Type} {ops : PageTableOps σ} {table bias : ℕ} {data : File} {h : Elf64Ehdr} {s : σ}

/-- the ranges the first loop ends with -/
theorem ranges_ok_iff (hread : AllRead data h) {r : List (ℕ × ℕ) ⊕ List (ℕ × ℕ)} :
    forRange (rangeTurn data h bias) h.ePhnum.toNat 0 [] = .ok r ↔
      RangesFit data h bias ∧ r = .inl (loadRanges data h bias h.ePhnum.toNat) := by
  cases r with
  | inl l =>
    rw [ranges_eq hread le_rfl, Sum.inl.injEq]
    rfl
  | inr l =>
    refine ⟨fun hloop => ?_, fun hr => nomatch hr.2⟩
    -- no turn breaks the loop
    obtain ⟨k, hk, t, -, hturn⟩ := forRange_eq_break.1 hloop
    rw [Nat.zero_add, rangeTurn_eq (hread k hk)] at hturn
    split_ifs at hturn
    · cases hturn
    · cases hturn

/-- when the relocation code returns, up to the loop over the relocations -/
theorem ends_applyRelocationsTo (hread : AllRead data h) :
    Ends (applyRelocationsTo ops table data h bias) s ↔ (RangesFit data h bias → DynReadable data h ∧
      ∀ info addr size, Says data h info → info.relaAddr = some addr → info.relaSize = some size →
        relaSize ≤ info.relaEnt.getD relaSize → size % info.relaEnt.getD relaSize = 0 →
        ∀ i, Holds data h addr i → fileOff data h addr i < 2 ^ 64 ∧ (fileOff data h addr i < data.len →
          Ends (M.forRange (relocTurn ops table data bias (loadRanges data h bias h.ePhnum.toNat)
            (fileOff data h addr i) (info.relaEnt.getD relaSize)) (size / info.relaEnt.getD relaSize) 0) s)) := by
  rw [applyRelocationsTo, ends_bind, ends_checked, and_iff_right (safe_ranges hread)]
  simp only [checked_eq_ok, ranges_ok_iff hread]
  constructor
  · intro hrest hfit
    have hends := hrest _ s ⟨⟨hfit, rfl⟩, rfl⟩
    rw [ends_bind, ends_checked, safe_dynInfo hread] at hends
    obtain ⟨hfirst, hinfo⟩ := hends
    refine ⟨hfirst, fun info addr size hsaid haddr hsize hent hmod i hholds => ?_⟩
    have hends := hinfo info s (checked_eq_ok.2 ⟨(dynInfo_iff hread hfirst).2 hsaid, rfl⟩)
    simp only [haddr, hsize] at hends
    rw [if_neg (by rw [not_or]; exact ⟨Nat.not_lt.2 hent, not_not_intro hmod⟩), ends_bind, ends_checked,
      safe_vaddrToOffset hread] at hends
    exact ⟨hends.1 i hholds, fun hlen =>
      hends.2 _ s (checked_eq_ok.2 ⟨(vaddrToOffset_iff hread).2 ⟨i, hholds, rfl, hlen⟩, rfl⟩)⟩
  · rintro hall ranges u ⟨⟨hfit, rfl⟩, rfl⟩
    obtain ⟨hfirst, hinfo⟩ := hall hfit
    rw [ends_bind, ends_checked, safe_dynInfo hread]
    refine ⟨hfirst, fun info v hchecked => ?_⟩
    obtain ⟨hdyn, rfl⟩ := checked_eq_ok.1 hchecked
    have hsaid := (dynInfo_iff hread hfirst).1 hdyn
    cases haddr : info.relaAddr with
    | none => exact ends_pure _ _
    | some addr =>
      cases hsize : info.relaSize with
      | none => exact ends_pure _ _
      | some size =>
        dsimp only
        split_ifs with hent
        · exact ends_fail _ _
        rw [ends_bind, ends_checked, safe_vaddrToOffset hread]
        rw [not_or, Nat.not_lt, not_not] at hent
        have hrest := hinfo info addr size hsaid haddr hsize hent.1 hent.2
        refine ⟨fun i hholds => (hrest i hholds).1, fun off w hchecked => ?_⟩
        obtain ⟨hoff, rfl⟩ := checked_eq_ok.1 hchecked
        obtain ⟨i, hholds, rfl, hlen⟩ := (vaddrToOffset_iff hread).1 hoff
        exact (hrest i hholds).2 hlen

theorem parseHeader_eq : parseHeader data = deref data 0 64 (ehdr data) := by
  rw [deref, add_eq (by decide)]
  rfl

theorem parseHeader_safe : Safe (parseHeader data) ↔ (64 ≤ data.len → data.addr % 8 = 0) := by
  rw [parseHeader_eq, safe_deref]
  exact and_iff_right (by decide)

theorem parseHeader_iff : parseHeader data = .ok h ↔ 64 ≤ data.len ∧ data.addr % 8 = 0 ∧ h = ehdr data := by
  rw [parseHeader_eq]
  constructor
  · exact deref_ok
  · rintro ⟨hlen, hal, rfl⟩
    exact deref_eq hlen hal

theorem pieLoadBias_ne_zero (random : ℕ) : pieLoadBias random ≠ 0 := by
  unfold pieLoadBias
  omega

variable {random : ℕ}

/-- when the code after the header checks returns, up to the relocation code -/
theorem ends_loadAtBias (hops : ops.Total) (hsize : h.ePhentsize.toNat = phdrSize) :
    Ends (loadAtBias ops table data h random) s ↔
      (h.ePhnum ≠ 0 → FirstReadable data h.ePhoff.toNat phdrSize) ∧ (h.eType = etDyn → ∀ t,
        M.forRange (loadTurn ops table data h (pieLoadBias random)) h.ePhnum.toNat 0 s = (.ok (), t) →
          Ends (applyRelocationsTo ops table data h (pieLoadBias random)) t) := by
  have hstack (bias : ℕ) (t : σ) : Ends (do
      let stack ← ops.allocUserStackInTable table 8
      return (⟨(h.eEntry.toNat + bias) % 2 ^ 64, bias, stack.2, stack.1⟩ : LoadedElf)) t :=
    ends_bind.2 ⟨hops.stack _ _ _, fun _ _ _ => ends_pure _ _⟩
  rw [loadAtBias]
  by_cases hdyn : h.eType = etDyn
  · simp only [if_pos hdyn, M.when, if_pos (pieLoadBias_ne_zero random)]
    rw [ends_bind, ends_loadLoop hops hsize]
    refine and_congr_right fun _ => ?_
    constructor
    · intro hrest _ t hloop
      exact (ends_bind.1 (hrest () t hloop)).1
    · intro hrest _ t hloop
      exact ends_bind.2 ⟨hrest hdyn t hloop, fun _ u _ => hstack _ u⟩
  · simp only [if_neg hdyn, M.when, ne_eq, not_true_eq_false, if_false]
    rw [ends_bind, ends_loadLoop hops hsize]
    refine and_congr_right fun _ => ?_
    constructor
    · exact fun _ hdyn' => absurd hdyn' hdyn
    · exact fun _ _ t _ => ends_bind.2 ⟨ends_pure _ _, fun _ u _ => hstack _ u⟩

theorem size_of_valid (hvalid : validHeader h = true) : h.ePhentsize.toNat = phdrSize := by
  simp only [validHeader, decide_eq_true_eq] at hvalid
  exact hvalid.2.2.2.2

theorem ends_loadElfInto :
    Ends (loadElfInto ops table data random) s ↔ (64 ≤ data.len → data.addr % 8 = 0 ∧
      (validHeader (ehdr data) = true → Ends (loadAtBias ops table data (ehdr data) random) s)) := by
  rw [loadElfInto, ends_bind, ends_checked, parseHeader_safe]
  simp only [checked_eq_ok, parseHeader_iff]
  constructor
  · rintro ⟨hal, hrest⟩ hlen
    refine ⟨hal hlen, fun hvalid => ?_⟩
    have hends := hrest _ s ⟨⟨hlen, hal hlen, rfl⟩, rfl⟩
    rwa [if_neg (by rw [hvalid]; decide)] at hends
  · intro hall
    refine ⟨fun hlen => (hall hlen).1, ?_⟩
    rintro h t ⟨⟨hlen, -, rfl⟩, rfl⟩
    cases hvalid : validHeader (ehdr data) with
    | false =>
      rw [if_pos rfl]
      exact ends_fail _ _
    | true =>
      rw [if_neg (by decide)]
      exact (hall hlen).2 hvalid

/-- the size of the relocations is read from a 64-bit field -/
theorem noted_size_lt {dynOff n size : ℕ} (hsize : (noted data dynOff n).relaSize = some size) : size < 2 ^ 64 := by
  induction n with
  | zero => cases hsize
  | succ n ih =>
    rw [noted, DynInfo.note] at hsize
    split_ifs at hsize
    · exact ih hsize
    · rw [← Option.some.inj hsize]
      exact UInt64.toNat_lt _
    · exact ih hsize
    · exact ih hsize

theorem Says.size_lt {info : DynInfo} {size : ℕ} (hsaid : Says data h info) (hsize : info.relaSize = some size) :
    size < 2 ^ 64 := by
  rcases hsaid with ⟨d, n, -, -, rfl⟩ | ⟨-, rfl⟩
  · exact noted_size_lt hsize
  · cases hsize

/-- with obliging paging code an accepted entry goes through -/
theorem loadTurn_obliging {i : ℕ} (hread : readEntry data h i = .ok (entry data h i)) (hacc : EntryAccepted data h i) :
    loadTurn obliging table data h bias i () = (.ok (), ()) := by
  rw [loadTurn]
  refine (ok_bind (checked_eq_ok.2 ⟨hread, rfl⟩) _).trans ?_
  by_cases htype : (entry data h i).pType = ptLoad
  swap
  · rw [if_pos htype]
    rfl
  by_cases hmem : (entry data h i).pMemsz = 0
  · rw [if_neg (not_not_intro htype), if_pos hmem]
    rfl
  obtain ⟨hfile, hsrc, hwx⟩ := hacc.2 htype hmem
  rw [if_neg (not_not_intro htype), if_neg hmem, if_neg (UInt64.not_lt.2 hfile), if_neg (Nat.not_lt.2 hsrc),
    slice_eq (Nat.le_add_right _ _) hsrc]
  exact congrFun (if_neg hwx) ()

/-! ## When the loader returns -/

/-- **A loadable file is loaded or refused.** Whatever the paging code answers, the loader returns. -/
theorem ends_of_loadable (hops : ops.Total) (hload : Loadable data random) :
    Ends (loadElfInto ops table data random) s := by
  rw [ends_loadElfInto]
  intro hlen
  obtain ⟨hal, hrest⟩ := hload hlen
  refine ⟨hal, fun hvalid => ?_⟩
  have hsize := size_of_valid hvalid
  rw [ends_loadAtBias hops hsize]
  obtain ⟨hfirst, hreloc⟩ := hrest hvalid
  refine ⟨hfirst, fun hdyn t hloop => ?_⟩
  have hturns := forRange_turns hloop
  have hacc : ∀ i < (ehdr data).ePhnum.toNat, EntryAccepted data (ehdr data) i ∧
      readEntry data (ehdr data) i = .ok (entry data (ehdr data) i) := by
    intro i hi
    obtain ⟨u, v, hturn⟩ := hturns i hi
    rw [Nat.zero_add] at hturn
    obtain ⟨hacc, hal⟩ := accepted_of_loadTurn hsize hi hturn
    exact ⟨hacc, readEntry_eq hsize hi hacc.1 hal⟩
  rw [ends_applyRelocationsTo fun i hi => (hacc i hi).2]
  intro hfit
  obtain ⟨hdynfirst, hrel⟩ := hreloc (fun i hi => (hacc i hi).1) hdyn hfit
  refine ⟨hdynfirst, fun info addr size hsaid haddr hsz hent hmod i hholds => ?_⟩
  obtain ⟨hlt, haligned⟩ := hrel info addr size hsaid haddr hsz hent hmod i hholds
  refine ⟨hlt, fun hin => ends_relocLoop hops hin ?_ (haligned hin)⟩
  exact (Nat.div_mul_le_self _ _).trans_lt (hsaid.size_lt hsz)

/-- **And no other file is,** with paging code that does not fail. -/
theorem loadable_of_ends (hends : Ends (loadElfInto obliging table data random) ()) : Loadable data random := by
  rw [ends_loadElfInto] at hends
  intro hlen
  obtain ⟨hal, hrest⟩ := hends hlen
  refine ⟨hal, fun hvalid => ?_⟩
  set h := ehdr data
  have hsize := size_of_valid hvalid
  obtain ⟨hfirst, hreloc⟩ := (ends_loadAtBias obliging_total hsize).1 (hrest hvalid)
  refine ⟨hfirst, fun hacc hdyn => ?_⟩
  have hread : ∀ i < h.ePhnum.toNat, readEntry data h i = .ok (entry data h i) := by
    intro i hi
    have hnum : h.ePhnum ≠ 0 := toNat_pos_iff.1 (by omega)
    refine readEntry_eq hsize hi (hacc i hi).1 ((hfirst hnum).2 ?_)
    have hzero := (hacc 0 (by omega)).1
    omega
  have hloop : M.forRange (loadTurn obliging table data h (pieLoadBias random)) h.ePhnum.toNat 0 () = (.ok (), ()) := by
    apply forRange_still
    intro i hi
    rw [Nat.zero_add]
    exact loadTurn_obliging (hread i hi) (hacc i hi)
  have hrel := (ends_applyRelocationsTo hread).1 (hreloc hdyn () hloop)
  intro hfit
  obtain ⟨hdynfirst, hrel⟩ := hrel hfit
  refine ⟨hdynfirst, fun info addr size hsaid haddr hsz hent hmod i hholds => ?_⟩
  obtain ⟨hlt, hloop⟩ := hrel info addr size hsaid haddr hsz hent hmod i hholds
  refine ⟨hlt, fun hin => aligned_of_ends hin ?_ (hloop hin)⟩
  exact (Nat.div_mul_le_self _ _).trans_lt (hsaid.size_lt hsz)

end Whole

end SwiftCore.Elf
