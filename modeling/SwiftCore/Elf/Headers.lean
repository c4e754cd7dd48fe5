/-
ELF headers and program headers (core/elf/loader.rs, and the part of core/syscall/exec.rs that walks the program headers
for `exec_with_data` and `execve`).

A file is the slice the kernel got: its bytes and the address they are at. `u16`, `u32` and `u64` read a field of a file
that is long enough; the code's own reads are guarded (`Exec`), with a panic on an index out of bounds and, the kernel
being built with overflow checks, on an overflow.
- `parseElfHeader_eq`, `parsePhdr_eq`: what the two parsers return.
- `safe_listLoadableSegments`: `list_loadable_segments` panics exactly when there is a first program header and its end
  is past the address space.
- `safe_segmentAt`: the walk of `exec_with_data` and `execve` never panics.
-/
import SwiftCore.Lib.Bytes
import SwiftCore.Lib.Checked

namespace SwiftCore.Elf

open Bytes Checked
open Exec (add sub mul div slice forRange attempt add_eq bind_eq_ok ok_bind)

/-! ## Files -/

/-- a `&[u8]` with the bytes of a file; no slice is longer than `isize::MAX` -/
structure File where
  bytes : List UInt8
  addr : ℕ
  length_lt : bytes.length < 2 ^ 63

namespace File

variable (data : File)

def len : ℕ := data.bytes.length

def u16 (offset : ℕ) : UInt16 := UInt16.ofNat (field data.bytes offset 2)

def u32 (offset : ℕ) : UInt32 := UInt32.ofNat (field data.bytes offset 4)

def u64 (offset : ℕ) : UInt64 := UInt64.ofNat (field data.bytes offset 8)

theorem len_lt : data.len < 2 ^ 63 := data.length_lt

end File

variable (data : File)

/-- `data[base + k..base + k + n]` -/
def bytesAt (base k n : ℕ) : Exec (List UInt8) := do
  let start ← add 64 base k
  let upto ← add 64 base (k + n)
  slice data.bytes start upto

def u16At (base k : ℕ) : Exec UInt16 := do
  let bs ← bytesAt data base k 2
  return UInt16.ofNat (ofLe bs)

def u32At (base k : ℕ) : Exec UInt32 := do
  let bs ← bytesAt data base k 4
  return UInt32.ofNat (ofLe bs)

def u64At (base k : ℕ) : Exec UInt64 := do
  let bs ← bytesAt data base k 8
  return UInt64.ofNat (ofLe bs)

section Reads

variable {data : File} {base k n : ℕ}

theorem bytesAt_eq (h : base + k + n ≤ data.len) :
    bytesAt data base k n = .ok ((data.bytes.drop (base + k)).take n) := by
  have hlen := data.len_lt
  unfold File.len at h hlen
  rw [bytesAt, add_eq (by omega), ok_bind, add_eq (by omega), ok_bind,
    slice_eq (by omega) (by omega)]
  congr 2
  omega

theorem safe_bytesAt : Safe (bytesAt data base k n) ↔ base + k + n ≤ data.len := by
  constructor
  · intro h
    unfold bytesAt at h
    obtain ⟨hstart, h⟩ := safe_bind.1 h
    rw [safe_add] at hstart
    obtain ⟨hupto, h⟩ := safe_bind.1 (h _ (add_eq hstart))
    rw [safe_add] at hupto
    have hslice := (safe_slice.1 (h _ (add_eq hupto))).2
    unfold File.len
    omega
  · intro h
    rw [bytesAt_eq h]
    exact safe_ok _

theorem u16At_eq (h : base + k + 2 ≤ data.len) : u16At data base k = .ok (data.u16 (base + k)) := by
  rw [u16At, bytesAt_eq h]
  rfl

theorem u32At_eq (h : base + k + 4 ≤ data.len) : u32At data base k = .ok (data.u32 (base + k)) := by
  rw [u32At, bytesAt_eq h]
  rfl

theorem u64At_eq (h : base + k + 8 ≤ data.len) : u64At data base k = .ok (data.u64 (base + k)) := by
  rw [u64At, bytesAt_eq h]
  rfl

theorem safe_u32At : Safe (u32At data base k) ↔ base + k + 4 ≤ data.len := by
  simp [u32At, safe_bind, safe_bytesAt]

theorem safe_u64At : Safe (u64At data base k) ↔ base + k + 8 ≤ data.len := by
  simp [u64At, safe_bind, safe_bytesAt]

end Reads

/-! ## The ELF header -/

structure Elf64Ehdr where
  eIdent : List UInt8
  eType : UInt16
  eMachine : UInt16
  eVersion : UInt32
  eEntry : UInt64
  ePhoff : UInt64
  eShoff : UInt64
  eFlags : UInt32
  eEhsize : UInt16
  ePhentsize : UInt16
  ePhnum : UInt16
  eShentsize : UInt16
  eShnum : UInt16
  eShstrndx : UInt16

def elfMagic : List UInt8 := [0x7f, 0x45, 0x4c, 0x46]

def emX86_64 : UInt16 := 0x3E

/-- the header a file of at least 64 bytes starts with -/
def ehdr (data : File) : Elf64Ehdr :=
  ⟨data.bytes.take 16, data.u16 16, data.u16 18, data.u32 20, data.u64 24, data.u64 32, data.u64 40, data.u32 48,
    data.u16 52, data.u16 54, data.u16 56, data.u16 58, data.u16 60, data.u16 62⟩

def parseElfHeader (data : File) : Exec Elf64Ehdr :=
  if data.len < 64 then .absent
  else do
    let eIdent ← slice data.bytes 0 16
    if eIdent.take 4 ≠ elfMagic then .absent
    else do
      let eType ← u16At data 0 16
      let eMachine ← u16At data 0 18
      if eMachine ≠ emX86_64 then .absent
      else do
        let eVersion ← u32At data 0 20
        let eEntry ← u64At data 0 24
        let ePhoff ← u64At data 0 32
        let eShoff ← u64At data 0 40
        let eFlags ← u32At data 0 48
        let eEhsize ← u16At data 0 52
        let ePhentsize ← u16At data 0 54
        let ePhnum ← u16At data 0 56
        let eShentsize ← u16At data 0 58
        let eShnum ← u16At data 0 60
        let eShstrndx ← u16At data 0 62
        return ⟨eIdent, eType, eMachine, eVersion, eEntry, ePhoff, eShoff, eFlags, eEhsize, ePhentsize, ePhnum,
          eShentsize, eShnum, eShstrndx⟩

/-- what `parse_elf_header` checks -/
def IsElf (data : File) : Prop :=
  64 ≤ data.len ∧ data.bytes.take 4 = elfMagic ∧ (ehdr data).eMachine = emX86_64
  deriving Decidable

theorem parseElfHeader_eq : parseElfHeader data = if IsElf data then .ok (ehdr data) else .absent := by
  unfold parseElfHeader
  by_cases hlen : data.len < 64
  · rw [if_pos hlen, if_neg fun h => by have := h.1; omega]
  have hlen' : 64 ≤ data.bytes.length := Nat.not_lt.1 hlen
  have hident : ((data.bytes.drop 0).take (16 - 0)).take 4 = data.bytes.take 4 := by
    rw [List.drop_zero, List.take_take]
    rfl
  rw [if_neg hlen, slice_eq (by omega) (by omega), ok_bind, hident]
  by_cases hmagic : data.bytes.take 4 ≠ elfMagic
  · rw [if_pos hmagic, if_neg fun h => hmagic h.2.1]
  rw [if_neg hmagic, u16At_eq (by omega), ok_bind, u16At_eq (by omega), ok_bind]
  by_cases hmachine : data.u16 (0 + 18) ≠ emX86_64
  · rw [if_pos hmachine, if_neg fun h => hmachine h.2.2]
  rw [if_neg hmachine, if_pos ⟨hlen', not_not.1 hmagic, not_not.1 hmachine⟩]
  simp (disch := omega) only [u16At_eq, u32At_eq, u64At_eq, ok_bind]
  rfl

theorem safe_parseElfHeader : Safe (parseElfHeader data) := by
  rw [parseElfHeader_eq]
  split_ifs
  · exact safe_ok _
  · exact safe_absent

/-! ## Program headers -/

structure Elf64Phdr where
  pType : UInt32
  pFlags : UInt32
  pOffset : UInt64
  pVaddr : UInt64
  pPaddr : UInt64
  pFilesz : UInt64
  pMemsz : UInt64
  pAlign : UInt64

def ptLoad : UInt32 := 1

def phdrSize : ℕ := 56

/-- the program header at an offset, where the file is long enough -/
def phdr (data : File) (offset : ℕ) : Elf64Phdr :=
  ⟨data.u32 offset, data.u32 (offset + 4), data.u64 (offset + 8), data.u64 (offset + 16), data.u64 (offset + 24),
    data.u64 (offset + 32), data.u64 (offset + 40), data.u64 (offset + 48)⟩

def parsePhdr (data : File) (offset : ℕ) : Exec Elf64Phdr := do
  let upto ← add 64 offset phdrSize
  if data.len < upto then .absent
  else do
    let pType ← u32At data offset 0
    let pFlags ← u32At data offset 4
    let pOffset ← u64At data offset 8
    let pVaddr ← u64At data offset 16
    let pPaddr ← u64At data offset 24
    let pFilesz ← u64At data offset 32
    let pMemsz ← u64At data offset 40
    let pAlign ← u64At data offset 48
    return ⟨pType, pFlags, pOffset, pVaddr, pPaddr, pFilesz, pMemsz, pAlign⟩

variable {offset i : ℕ} {eh : Elf64Ehdr}

theorem parsePhdr_eq {data : File} (h : offset + phdrSize < 2 ^ 64) :
    parsePhdr data offset = if data.len < offset + phdrSize then .absent else .ok (phdr data offset) := by
  rw [parsePhdr, add_eq h, ok_bind]
  split_ifs with hlen
  · rfl
  · unfold phdrSize at hlen
    simp (disch := omega) only [u32At_eq, u64At_eq, ok_bind]
    rfl

theorem safe_parsePhdr {data : File} : Safe (parsePhdr data offset) ↔ offset + phdrSize < 2 ^ 64 := by
  constructor
  · intro h
    exact safe_add.1 (safe_bind.1 h).1
  · intro h
    rw [parsePhdr_eq h]
    split_ifs
    · exact safe_absent
    · exact safe_ok _

theorem parsePhdr_ok {data : File} {ph : Elf64Phdr} (h : parsePhdr data offset = .ok ph) :
    offset + phdrSize ≤ data.len ∧ ph = phdr data offset := by
  have hsafe : Safe (parsePhdr data offset) := h ▸ safe_ok ph
  rw [parsePhdr_eq (safe_parsePhdr.1 hsafe)] at h
  rcases ite_eq_iff.1 h with ⟨hlen, h⟩ | ⟨hlen, h⟩
  · cases h
  · rw [Exec.ok.injEq] at h
    exact ⟨Nat.not_lt.1 hlen, h.symm⟩

/-! ## `list_loadable_segments` -/

/-- address, size in memory, size in the file, offset, flags -/
abbrev LoadableSegment := UInt64 × UInt64 × UInt64 × UInt64 × UInt32

/-- one turn of the loop -/
def listTurn (data : File) (eh : Elf64Ehdr) (i : ℕ) (res : List LoadableSegment) :
    Exec (List LoadableSegment ⊕ List LoadableSegment) := do
  let x ← mul 64 i eh.ePhentsize.toNat
  let off ← add 64 eh.ePhoff.toNat x
  let ph ← parsePhdr data off
  if ph.pType = ptLoad then
    return .inl (res ++ [(ph.pVaddr, ph.pMemsz, ph.pFilesz, ph.pOffset, ph.pFlags)])
  else return .inl res

def listLoadableSegments (data : File) : Exec (List LoadableSegment) := do
  let eh ← parseElfHeader data
  let res ← forRange (listTurn data eh) eh.ePhnum.toNat 0 []
  return res.elim id id

/-- the first program header, if there is one, ends inside the address space -/
def FirstPhdrEnds (data : File) : Prop :=
  (ehdr data).ePhnum ≠ 0 → (ehdr data).ePhoff.toNat + phdrSize < 2 ^ 64
  deriving Decidable

theorem toNat_pos_iff {n : UInt16} : 0 < n.toNat ↔ n ≠ 0 := by
  rw [Nat.pos_iff_ne_zero, ne_eq, ne_eq, ← UInt16.toNat_inj]
  rfl

/-- the product of two 16-bit fields -/
theorem mul_lt_of_toNat {n m : UInt16} (hi : i < n.toNat) : i * m.toNat < 2 ^ 32 := by
  have hn := n.toNat_lt
  have hm := m.toNat_lt
  calc i * m.toNat ≤ 2 ^ 16 * m.toNat := Nat.mul_le_mul_right _ (by omega)
    _ < 2 ^ 16 * 2 ^ 16 := Nat.mul_lt_mul_of_pos_left hm (by norm_num)

theorem safe_listTurn_iff {data : File} (hi : i < eh.ePhnum.toNat) (res : List LoadableSegment) :
    Safe (listTurn data eh i res) ↔ eh.ePhoff.toNat + i * eh.ePhentsize.toNat + phdrSize < 2 ^ 64 := by
  have hx := @mul_lt_of_toNat i eh.ePhnum eh.ePhentsize hi
  rw [listTurn, Exec.mul_eq (by omega), ok_bind]
  constructor
  · intro h
    obtain ⟨hadd, h⟩ := safe_bind.1 h
    exact safe_parsePhdr.1 (safe_bind.1 (h _ (add_eq (safe_add.1 hadd)))).1
  · intro h
    rw [add_eq (by omega), ok_bind, safe_bind, safe_parsePhdr]
    refine ⟨h, fun ph _ => ?_⟩
    split_ifs
    · exact safe_ok _
    · exact safe_ok _

/-- a turn that ends has read a program header -/
theorem listTurn_inside {data : File} {res : List LoadableSegment}
    {r : List LoadableSegment ⊕ List LoadableSegment} (h : listTurn data eh i res = .ok r) :
    eh.ePhoff.toNat + i * eh.ePhentsize.toNat + phdrSize ≤ data.len := by
  obtain ⟨x, hx, h⟩ := bind_eq_ok.1 h
  obtain ⟨off, hoff, h⟩ := bind_eq_ok.1 h
  obtain ⟨ph, hph, -⟩ := bind_eq_ok.1 h
  rw [← Exec.eq_of_mul_ok hx, ← Exec.eq_of_add_ok hoff]
  exact (parsePhdr_ok hph).1

/-- **When `list_loadable_segments` returns.** -/
theorem safe_listLoadableSegments :
    Safe (listLoadableSegments data) ↔ (IsElf data → FirstPhdrEnds data) := by
  rw [listLoadableSegments, parseElfHeader_eq]
  by_cases helf : IsElf data
  · have hloop : Safe (forRange (listTurn data (ehdr data)) (ehdr data).ePhnum.toNat 0 []) ↔ FirstPhdrEnds data := by
      rw [safe_forRange]
      constructor
      · intro h hnum
        have hfirst := (safe_listTurn_iff (toNat_pos_iff.2 hnum) _).1 (h 0 (toNat_pos_iff.2 hnum) [] rfl)
        simpa using hfirst
      · intro h k hk res hpass
        have hfirst := h (toNat_pos_iff.1 (by omega))
        rw [Nat.zero_add, safe_listTurn_iff hk]
        cases k with
        | zero => simpa using hfirst
        | succ k =>
          -- the first header was read, so the table starts inside the file
          obtain ⟨res', hturn⟩ := forRange_first hpass
          have hx := @mul_lt_of_toNat (k + 1) _ (ehdr data).ePhentsize hk
          have hin := listTurn_inside hturn
          have hlen := data.len_lt
          unfold phdrSize at hin ⊢
          omega
    simp [safe_bind, hloop, helf]
  · simp [helf]

/-! ## The walk of `exec_with_data` and `execve` -/

def userSpaceEnd : ℕ := 0x00007FFFFFFFFFFF

/-- a segment to map -/
structure Segment where
  vaddr : UInt64
  filesz : UInt64
  memsz : UInt64
  offset : UInt64
  src : List UInt8
  writable : Bool
  executable : Bool

/-- `i.checked_mul(phentsize).and_then(|x| phoff.checked_add(x))` -/
def phdrOffset (eh : Elf64Ehdr) (i : ℕ) : Option ℕ :=
  let x := i * eh.ePhentsize.toNat
  if x < 2 ^ 64 ∧ eh.ePhoff.toNat + x < 2 ^ 64 then some (eh.ePhoff.toNat + x) else none

/-- the checks on a loadable segment; the range of its bytes is cut out of the file -/
def checkSegment (data : File) (ph : Elf64Phdr) : Exec (Option Segment) :=
  if userSpaceEnd ≤ ph.pVaddr.toNat then .absent
  else if 0 < ph.pMemsz.toNat ∧ userSpaceEnd < ph.pVaddr.toNat + ph.pMemsz.toNat then .absent
  else if data.len < ph.pOffset.toNat + ph.pFilesz.toNat then .absent
  else do
    let src ← slice data.bytes ph.pOffset.toNat (ph.pOffset.toNat + ph.pFilesz.toNat)
    return some ⟨ph.pVaddr, ph.pFilesz, ph.pMemsz, ph.pOffset, src, ph.pFlags &&& 2 ≠ 0, ph.pFlags &&& 1 ≠ 0⟩

/-- what program header `i` asks to map; `none` for one that is not loadable and for one that the file cuts off -/
def segmentAt (data : File) (eh : Elf64Ehdr) (i : ℕ) : Exec (Option Segment) :=
  match phdrOffset eh i with
  | none => .absent
  | some off =>
    if data.len ≤ off then .absent
    else do
      match ← attempt (parsePhdr data off) with
      | none => return none
      | some ph => if ph.pType = ptLoad then checkSegment data ph else return none

/-- the checks on a loadable segment, as a condition on its header -/
def SegmentFits (data : File) (ph : Elf64Phdr) : Prop :=
  ph.pVaddr.toNat < userSpaceEnd ∧ (0 < ph.pMemsz.toNat → ph.pVaddr.toNat + ph.pMemsz.toNat ≤ userSpaceEnd) ∧
    ph.pOffset.toNat + ph.pFilesz.toNat ≤ data.len
  deriving Decidable

/-- where program header `i` is in the file -/
def phdrPos (eh : Elf64Ehdr) (i : ℕ) : ℕ := eh.ePhoff.toNat + i * eh.ePhentsize.toNat

/-- the walk gets past program header `i`: it starts in the file, and a loadable segment fits -/
def Walked (data : File) (eh : Elf64Ehdr) (i : ℕ) : Prop :=
  phdrPos eh i < data.len ∧ (phdrPos eh i + phdrSize ≤ data.len → (phdr data (phdrPos eh i)).pType = ptLoad →
    SegmentFits data (phdr data (phdrPos eh i)))

/-- the segment that a loadable header describes -/
def segmentOf (data : File) (ph : Elf64Phdr) : Segment :=
  ⟨ph.pVaddr, ph.pFilesz, ph.pMemsz, ph.pOffset, (data.bytes.drop ph.pOffset.toNat).take ph.pFilesz.toNat,
    ph.pFlags &&& 2 ≠ 0, ph.pFlags &&& 1 ≠ 0⟩

theorem checkSegment_eq (ph : Elf64Phdr) :
    checkSegment data ph = if SegmentFits data ph then .ok (some (segmentOf data ph)) else .absent := by
  unfold checkSegment
  by_cases hfits : SegmentFits data ph
  · obtain ⟨hvaddr, hmem, hsrc⟩ := id hfits
    rw [if_pos hfits, if_neg (by omega), if_neg (by omega), if_neg (by omega), slice_eq (Nat.le_add_right _ _) hsrc,
      Nat.add_sub_cancel_left]
    rfl
  · rw [if_neg hfits]
    unfold SegmentFits at hfits
    split_ifs
    · rfl
    · rfl
    · rfl
    · omega

theorem safe_checkSegment (ph : Elf64Phdr) : Safe (checkSegment data ph) := by
  rw [checkSegment_eq]
  split_ifs
  · exact safe_ok _
  · exact safe_absent

/-- **The walk returns.** Neither `exec_with_data` nor `execve` panics on a program header. -/
theorem safe_segmentAt (eh : Elf64Ehdr) (i : ℕ) : Safe (segmentAt data eh i) := by
  unfold segmentAt
  cases phdrOffset eh i with
  | none => exact safe_absent
  | some off =>
    dsimp only
    split_ifs with hoff
    · exact safe_absent
    · have hlen := data.len_lt
      rw [safe_bind, safe_attempt, safe_parsePhdr]
      refine ⟨by unfold phdrSize; omega, fun ph _ => ?_⟩
      cases ph with
      | none => exact safe_ok _
      | some ph =>
        dsimp only
        split_ifs
        · exact safe_checkSegment data ph
        · exact safe_ok _

/-- the segment that program header `i` describes, if it is in the file and loadable -/
def segmentIn (data : File) (eh : Elf64Ehdr) (i : ℕ) : Option Segment :=
  if phdrPos eh i + phdrSize ≤ data.len ∧ (phdr data (phdrPos eh i)).pType = ptLoad then
    some (segmentOf data (phdr data (phdrPos eh i)))
  else none

/-- what the walk finds, and when -/
theorem segmentAt_iff {data : File} (hi : i < eh.ePhnum.toNat) {o : Option Segment} :
    segmentAt data eh i = .ok o ↔ Walked data eh i ∧ o = segmentIn data eh i := by
  have hlen := data.len_lt
  have hx := @mul_lt_of_toNat i eh.ePhnum eh.ePhentsize hi
  unfold segmentAt phdrOffset Walked segmentIn
  by_cases hoff : eh.ePhoff.toNat + i * eh.ePhentsize.toNat < 2 ^ 64
  swap
  · rw [if_neg fun h => hoff h.2]
    refine ⟨fun h => (nomatch h), fun h => ?_⟩
    have hlt : phdrPos eh i < data.len := h.1.1
    unfold phdrPos at hlt
    omega
  rw [if_pos ⟨by omega, hoff⟩]
  dsimp only
  rw [show eh.ePhoff.toNat + i * eh.ePhentsize.toNat = phdrPos eh i from rfl]
  by_cases hin : data.len ≤ phdrPos eh i
  · rw [if_pos hin]
    exact ⟨fun h => (nomatch h), fun h => absurd h.1.1 (Nat.not_lt.2 hin)⟩
  rw [if_neg hin, parsePhdr_eq (by unfold phdrSize; omega)]
  have hin' := Nat.not_le.1 hin
  by_cases hend : data.len < phdrPos eh i + phdrSize
  · have hcut := Nat.not_le.2 hend
    rw [if_pos hend]
    simp [attempt, hin', hcut, eq_comm]
  have hend' := Nat.not_lt.1 hend
  rw [if_neg hend]
  by_cases htype : (phdr data (phdrPos eh i)).pType = ptLoad
  · by_cases hfits : SegmentFits data (phdr data (phdrPos eh i))
    · simp [attempt, hin', hend', htype, hfits, checkSegment_eq, eq_comm]
    · simp [attempt, hin', hend', htype, hfits, checkSegment_eq]
  · have hnot : ¬ (phdrPos eh i + phdrSize ≤ data.len ∧ (phdr data (phdrPos eh i)).pType = ptLoad) := fun h => htype h.2
    simp only [attempt, ok_bind, if_neg htype, if_neg hnot]
    exact ⟨fun h => ⟨⟨hin', fun _ h' => absurd h' htype⟩, (Exec.ok.inj h).symm⟩, fun h => congrArg Exec.ok h.2.symm⟩

/-! ## A small file -/

/-- an ELF header and nothing else -/
def bareElf (phoff phnum shoff : ℕ) : File where
  bytes := [0x7f, 0x45, 0x4c, 0x46, 2, 1, 1] ++ List.replicate 9 0 ++ leBytes 2 2 ++ leBytes 2 0x3E ++ leBytes 4 1 ++
    leBytes 8 0x400000 ++ leBytes 8 phoff ++ leBytes 8 shoff ++ leBytes 4 0 ++ leBytes 2 64 ++ leBytes 2 56 ++
    leBytes 2 phnum ++ leBytes 2 64 ++ leBytes 2 1 ++ leBytes 2 0
  addr := 0x1000
  length_lt := by simp

end SwiftCore.Elf
