/-
The parts that `exec_with_data` and `execve_syscall` share (core/syscall/exec.rs): the walk over the program headers,
the initial stack, the TLS block.

What the paging code does is a parameter (`PageTableOps`). The seed of the address space randomisation is drawn by the
caller. Lengths of vectors are natural numbers: what is counted is in memory.

- `ends_mapSegments`, `ends_mapStack`, `ends_mapInitialTls`: the parts return.
-/
import SwiftCore.Elf.Loader

namespace SwiftCore.Launch

open Bytes Checked Fallible Elf
open Mem (Kernel)
open Exec (add sub mul attempt add_eq sub_eq)

/-! ## Addresses -/

inductive Errno where
  | EINVAL
  | ENOENT
  | ENOMEM
  | EPERM
  deriving DecidableEq, Repr

def stackTopBase : ℕ := 0x7FFFFFF00000

def stackAslrMaxPages : ℕ := 4096

def userStackSizePages : ℕ := 32

def tlsBaseMin : ℕ := 0x30000000

def tlsAslrMaxPages : ℕ := 0x4000

def initialTlsSize : ℕ := 4096

def heapBaseMin : ℕ := 0x40000000

def heapAslrMaxPages : ℕ := 0x8000

def heapMapSize : ℕ := 4096 * 2

def aslrMix64 (x : UInt64) : UInt64 :=
  let x := x ^^^ (x >>> 30)
  let x := x * 0xbf58476d1ce4e5b9
  let x := x ^^^ (x >>> 27)
  let x := x * 0x94d049bb133111eb
  x ^^^ (x >>> 31)

variable (seed : UInt64)

def aslrOffsetPages (maxPages : ℕ) : ℕ := if maxPages = 0 then 0 else (aslrMix64 seed).toNat % maxPages

/-- `stack_end_vaddr` -/
def stackEnd : ℕ := stackTopBase - aslrOffsetPages (seed ^^^ 0x53a91e2d) stackAslrMaxPages * 4096

/-- `tls_base` -/
def tlsBase : ℕ := tlsBaseMin + aslrOffsetPages (seed ^^^ 0x19d73c6a) tlsAslrMaxPages * 4096

/-- `default_heap_base`, `heap_base` -/
def heapBase : ℕ := heapBaseMin + aslrOffsetPages (seed ^^^ 0x4a116b5c) heapAslrMaxPages * 4096

theorem aslrOffsetPages_lt {maxPages : ℕ} (h : 0 < maxPages) :
    aslrOffsetPages seed maxPages < maxPages := by
  rw [aslrOffsetPages, if_neg h.ne']
  exact Nat.mod_lt _ h

/-- the randomisation takes at most 16 MiB off the top -/
theorem stackEnd_bounds :
    stackTopBase - 4096 * 4096 < stackEnd seed ∧ stackEnd seed ≤ stackTopBase := by
  have h := @aslrOffsetPages_lt (seed ^^^ 0x53a91e2d) stackAslrMaxPages (by decide)
  unfold stackEnd stackTopBase stackAslrMaxPages at *
  omega

/-! ## The initial stack -/

structure InitialUserStack where
  stackBaseVaddr : ℕ
  stackEndVaddr : ℕ
  initialRsp : ℕ
  pageData : List UInt8

/-- the strings, each with a NUL behind it -/
def stringBlock (strs : List (List UInt8)) : List UInt8 := strs.flatMap (· ++ [0])

/-- where each of them starts, if the first starts at `n` -/
def offsets : List (List UInt8) → ℕ → List ℕ
  | [], _ => []
  | s :: strs, n => n :: offsets strs (n + (s.length + 1))

/-- one step of the generator behind `AT_RANDOM` -/
def nextRandom (rng : UInt64) : UInt64 := rng * 6364136223846793005 + 1442695040888963407

def randomBytes : ℕ → UInt64 → List UInt8
  | 0, _ => []
  | n + 1, rng => (nextRandom rng >>> 33).toUInt8 :: randomBytes n (nextRandom rng)

/-- the loop that writes pointers -/
def pointers (areaBase : ℕ) : List ℕ → Exec (List UInt8)
  | [] => .ok []
  | off :: offs => do
    let ptr ← add 64 areaBase off
    let rest ← pointers areaBase offs
    return leBytes 8 ptr ++ rest

/-- one entry of the auxiliary vector; `AT_RANDOM` and `AT_EXECFN` point into the strings -/
def auxvBytes (randomAddr execfnAddr : ℕ) (e : ℕ × ℕ) : List UInt8 :=
  leBytes 8 e.1 ++ leBytes 8 (if e.1 = 25 then randomAddr else if e.1 = 31 then execfnAddr else e.2)

/-- `string_block`: arguments, environment, 16 random bytes, the path -/
def stringArea (argv envp : List (List UInt8)) (execfn : List UInt8) : List UInt8 :=
  stringBlock argv ++ stringBlock envp ++ randomBytes 16 (nextRandom seed) ++ (execfn ++ [0])

/-- `padding_len` -/
def paddingLen (needed : ℕ) : ℕ := (16 - needed % 16) % 16

/-- `unused_space` -/
def unusedSpace (totalSize : ℕ) : ℕ := if totalSize % 4096 = 0 then 0 else 4096 - totalSize % 4096

/-- `build_initial_user_stack` -/
def buildInitialUserStack (argv envp : List (List UInt8)) (execfn : List UInt8)
    (auxv : List (ℕ × ℕ)) : Exec InitialUserStack := do
  let shift ← mul 64 (aslrOffsetPages (seed ^^^ 0x53a91e2d) stackAslrMaxPages) 4096
  let stackEndVaddr := stackTopBase - shift
  let stackBaseVaddr ← sub stackEndVaddr (userStackSizePages * 4096)
  let strings := stringArea seed argv envp execfn
  let randomOffset := (stringBlock argv).length + (stringBlock envp).length
  let pointersBytes := 8 + argv.length * 8 + 8 + envp.length * 8 + 8 + auxv.length * 16
  let totalDataNeeded := strings.length + pointersBytes
  let totalSize := totalDataNeeded + paddingLen totalDataNeeded
  if 4096 < totalSize then .absent
  else do
    let areaBase ← sub stackEndVaddr strings.length
    let randomAddr ← add 64 areaBase randomOffset
    let execfnAddr ← add 64 areaBase (randomOffset + 16)
    let initialRsp ← sub stackEndVaddr totalSize
    let argvPtrs ← pointers areaBase (offsets argv 0)
    let envpPtrs ← pointers areaBase (offsets envp (stringBlock argv).length)
    let pageData := List.replicate (unusedSpace totalSize) 0 ++ leBytes 8 argv.length ++ argvPtrs ++ leBytes 8 0 ++
      envpPtrs ++ leBytes 8 0 ++ auxv.flatMap (auxvBytes randomAddr execfnAddr) ++
      List.replicate (paddingLen totalDataNeeded) 0 ++ strings
    if pageData.length ≠ 4096 then .absent
    else return ⟨stackBaseVaddr, stackEndVaddr, initialRsp, pageData⟩

/-! ## Mapping -/

section Map

variable {σ : Type} (ops : PageTableOps σ) (table : ℕ)

/-- `map_and_copy_segment_to` where an error is `EINVAL` -/
def mapArea (vaddr filesz memsz : ℕ) (src : List UInt8) (writable executable : Bool) : M σ Errno Unit :=
  M.errAs .EINVAL (ops.mapAndCopySegmentTo table vaddr filesz memsz src writable executable)

/-- one turn of the walk over the program headers; what is handed on is `load_base` once it is set -/
def walkTurn (data : File) (eh : Elf64Ehdr) (i : ℕ) (base : Option ℕ) : M σ Errno (Option ℕ) := do
  match ← M.checked .EINVAL (segmentAt data eh i) with
  | none => return base
  | some seg => do
    mapArea ops table seg.vaddr.toNat seg.filesz.toNat seg.memsz.toNat seg.src seg.writable seg.executable
    return some (base.getD (seg.vaddr.toNat - seg.offset.toNat))

/-- what the auxiliary vector says about the program headers -/
structure PhdrInfo where
  phdrVaddr : ℕ
  phentsize : ℕ
  phnum : ℕ

/-- the segments are mapped; `phdrAddr` is the sum of `load_base` and `e_phoff` -/
def mapSegments (data : File) (phdrAddr : ℕ → ℕ → Exec ℕ) : M σ Errno PhdrInfo := do
  match ← M.checked .EINVAL (attempt (parseElfHeader data)) with
  | none => return ⟨0, 0, 0⟩
  | some eh =>
    if eh.eMachine ≠ emX86_64 then M.fail .EINVAL
    else if eh.ePhentsize = 0 then M.fail .EINVAL
    else do
      let base ← M.foldRange (walkTurn ops table data eh) eh.ePhnum.toNat 0 none
      let phdrVaddr ← M.checked .EINVAL (phdrAddr (base.getD 0) eh.ePhoff.toNat)
      return ⟨phdrVaddr, eh.ePhentsize.toNat, eh.ePhnum.toNat⟩

def auxvEntries (info : PhdrInfo) (entry : ℕ) : List (ℕ × ℕ) :=
  [(3, info.phdrVaddr), (4, info.phentsize), (5, info.phnum), (6, 4096), (7, 0), (8, 0), (9, entry), (11, 0), (12, 0),
    (13, 0), (14, 0), (16, 0), (17, 100), (23, 0), (25, 0), (31, 0), (0, 0)]

/-- the lower pages of the stack, then the top page with the arguments -/
def mapStack (stack : InitialUserStack) : M σ Errno Unit := do
  mapArea ops table stack.stackBaseVaddr 0 ((userStackSizePages - 1) * 4096) [] true false
  let topPageVaddr ← M.checked .EINVAL (sub stack.stackEndVaddr 4096)
  mapArea ops table topPageVaddr 4096 4096 stack.pageData true false

/-- `tls_data`: the block's own address, then zeros -/
def tlsData (seed : UInt64) : List UInt8 := leBytes 8 (tlsBase seed) ++ List.replicate (initialTlsSize - 8) 0

/-- `map_initial_tls` -/
def mapInitialTls (seed : UInt64) : M σ Errno ℕ := do
  mapArea ops table (tlsBase seed) initialTlsSize initialTlsSize (tlsData seed) true false
  return tlsBase seed

variable {ops table}

/-- a turn that ends well has got past its header -/
theorem walkTurn_ok {data : File} {eh : Elf64Ehdr} {i : ℕ} (hi : i < eh.ePhnum.toNat) {base b : Option ℕ} {s t : σ}
    (h : walkTurn ops table data eh i base s = (.ok b, t)) :
    Walked data eh i ∧ (b = base ∨ ∃ seg, segmentIn data eh i = some seg ∧
      b = some (base.getD (seg.vaddr.toNat - seg.offset.toNat))) := by
  obtain ⟨seg, u, hseg, h⟩ := bind_eq_ok.1 h
  obtain ⟨hwalked, rfl⟩ := (segmentAt_iff hi).1 (checked_eq_ok.1 hseg).1
  refine ⟨hwalked, ?_⟩
  cases hin : segmentIn data eh i with
  | none =>
    rw [hin] at h
    exact .inl (Outcome.ok.inj (congrArg Prod.fst h)).symm
  | some seg =>
    rw [hin] at h
    obtain ⟨_, v, -, h⟩ := bind_eq_ok.1 h
    exact .inr ⟨seg, rfl, (Outcome.ok.inj (congrArg Prod.fst h)).symm⟩

/-- a segment that is mapped starts in user space -/
theorem vaddr_lt_of_segmentIn {data : File} {eh : Elf64Ehdr} {i : ℕ} {seg : Segment} (hwalked : Walked data eh i)
    (h : segmentIn data eh i = some seg) : seg.vaddr.toNat < userSpaceEnd := by
  unfold segmentIn at h
  rcases ite_eq_iff.1 h with ⟨hin, h⟩ | ⟨hin, h⟩
  · rw [Option.some.injEq] at h
    rw [← h]
    exact (hwalked.2 hin.1 hin.2).1
  · cases h

variable (hops : ops.Total)

include hops

theorem ends_mapArea (vaddr filesz memsz : ℕ) (src : List UInt8) (writable executable : Bool) (s : σ) :
    Ends (mapArea ops table vaddr filesz memsz src writable executable) s :=
  ends_errAs.2 (hops.map _ _ _ _ _ _ _ _)

theorem ends_walkTurn (data : File) (eh : Elf64Ehdr) (i : ℕ) (base : Option ℕ) (s : σ) :
    Ends (walkTurn ops table data eh i base) s := by
  rw [walkTurn, ends_bind, ends_checked]
  refine ⟨safe_segmentAt data eh i, fun seg t _ => ?_⟩
  cases seg with
  | none => exact ends_pure _ _
  | some seg => exact ends_bind.2 ⟨ends_mapArea hops _ _ _ _ _ _ _, fun _ _ _ => ends_pure _ _⟩

/-- **The walk returns,** if the sum behind it does. -/
theorem ends_mapSegments {data : File} {phdrAddr : ℕ → ℕ → Exec ℕ}
    (haddr : ∀ base t u, M.foldRange (walkTurn ops table data (ehdr data)) (ehdr data).ePhnum.toNat 0 none t =
      (.ok base, u) → Safe (phdrAddr (base.getD 0) (ehdr data).ePhoff.toNat)) (s : σ) :
    Ends (mapSegments ops table data phdrAddr) s := by
  rw [mapSegments, ends_bind, ends_checked, safe_attempt]
  refine ⟨safe_parseElfHeader data, fun r t hr => ?_⟩
  cases r with
  | none => exact ends_pure _ _
  | some eh =>
    dsimp only
    split_ifs with hmachine hsize
    · exact ends_fail _ _
    · exact ends_fail _ _
    · obtain rfl : eh = ehdr data := by
        have hparse := (checked_eq_ok.1 hr).1
        rw [parseElfHeader_eq] at hparse
        split_ifs at hparse with helf
        · exact (Option.some.inj (Exec.ok.inj hparse)).symm
        · cases hparse
      refine ends_bind.2 ⟨ends_foldRange (ends_walkTurn hops data _) _ _ _ _, fun base u hloop => ?_⟩
      exact ends_bind.2 ⟨ends_checked.2 (haddr base t u hloop), fun _ _ _ => ends_pure _ _⟩

theorem ends_mapStack {stack : InitialUserStack} (hend : 4096 ≤ stack.stackEndVaddr) (s : σ) :
    Ends (mapStack ops table stack) s := by
  refine ends_bind.2 ⟨ends_mapArea hops _ _ _ _ _ _ _, fun _ t _ => ?_⟩
  rw [sub_eq hend]
  exact ends_mapArea hops _ _ _ _ _ _ _

theorem ends_mapInitialTls (seed : UInt64) (s : σ) : Ends (mapInitialTls ops table seed) s :=
  ends_bind.2 ⟨ends_mapArea hops _ _ _ _ _ _ _, fun _ _ _ => ends_pure _ _⟩

end Map

/-! ## What mapping leaves alone -/

section Keep

variable {σ γ : Type} {ops : PageTableOps σ} {table : ℕ} {g : σ → γ}
  (hmap : ∀ vaddr filesz memsz src writable executable,
    Keeps g (ops.mapAndCopySegmentTo table vaddr filesz memsz src writable executable))

include hmap

theorem keeps_mapArea (vaddr filesz memsz : ℕ) (src : List UInt8) (writable executable : Bool) :
    Keeps g (mapArea ops table vaddr filesz memsz src writable executable) := (hmap _ _ _ _ _ _).errAs

theorem keeps_mapSegments (data : File) (phdrAddr : ℕ → ℕ → Exec ℕ) :
    Keeps g (mapSegments ops table data phdrAddr) := by
  have hturn (eh : Elf64Ehdr) (i : ℕ) (base : Option ℕ) : Keeps g (walkTurn ops table data eh i base) := by
    refine (Keeps.checked _ _).bind fun seg => ?_
    cases seg with
    | none => exact Keeps.pure _
    | some seg => exact (keeps_mapArea hmap _ _ _ _ _ _).bind fun _ => Keeps.pure _
  refine (Keeps.checked _ _).bind fun r => ?_
  cases r with
  | none => exact Keeps.pure _
  | some eh =>
    refine Keeps.ite (Keeps.fail _) (Keeps.ite (Keeps.fail _) ?_)
    exact (Keeps.foldRange (hturn eh) _ _ _).bind fun _ => (Keeps.checked _ _).bind fun _ => Keeps.pure _

theorem keeps_mapStack (stack : InitialUserStack) : Keeps g (mapStack ops table stack) :=
  (keeps_mapArea hmap _ _ _ _ _ _).bind fun _ => (Keeps.checked _ _).bind fun _ => keeps_mapArea hmap _ _ _ _ _ _

theorem keeps_mapInitialTls (seed : UInt64) : Keeps g (mapInitialTls ops table seed) :=
  (keeps_mapArea hmap _ _ _ _ _ _).bind fun _ => Keeps.pure _

end Keep

/-! ## Paging as a part of the system -/

/-- the paging functions on a state that holds theirs -/
def pagingIn {σ π : Type} (get : σ → π) (set : σ → π → σ) (ops : PageTableOps π) : PageTableOps σ where
  createUserPageTable := M.zoom get set ops.createUserPageTable
  destroyUserPageTable table := M.zoom get set (ops.destroyUserPageTable table)
  mapAndCopySegmentTo table vaddr filesz memsz src writable executable :=
    M.zoom get set (ops.mapAndCopySegmentTo table vaddr filesz memsz src writable executable)
  copyToUserInTable table addr bytes := M.zoom get set (ops.copyToUserInTable table addr bytes)
  allocUserStackInTable table pages := M.zoom get set (ops.allocUserStackInTable table pages)

theorem pagingIn_total {σ π : Type} {get : σ → π} {set : σ → π → σ} {ops : PageTableOps π} (hops : ops.Total) :
    (pagingIn get set ops).Total where
  create _ := hops.create _
  destroy _ _ := hops.destroy _ _
  map _ _ _ _ _ _ _ _ := hops.map _ _ _ _ _ _ _ _
  copy _ _ _ _ := hops.copy _ _ _ _
  stack _ _ _ := hops.stack _ _ _

/-- the page tables made and destroyed so far, newest first -/
structure Book where
  made : List ℕ
  torn : List ℕ

/-- paging code with a record of the page tables it made and destroyed; only creating and destroying one changes it -/
structure Ledger {π : Type} (ops : PageTableOps π) where
  book : π → Book
  create : ∀ s, match ops.createUserPageTable s with
    | (.ok table, t) => book t = ⟨table :: (book s).made, (book s).torn⟩
    | (_, t) => book t = book s
  destroy : ∀ table s, book (ops.destroyUserPageTable table s).2 = ⟨(book s).made, table :: (book s).torn⟩
  map : ∀ table vaddr filesz memsz src writable executable,
    Keeps book (ops.mapAndCopySegmentTo table vaddr filesz memsz src writable executable)
  copy : ∀ table addr bytes, Keeps book (ops.copyToUserInTable table addr bytes)
  stack : ∀ table pages, Keeps book (ops.allocUserStackInTable table pages)

namespace Ledger

variable {π : Type} {ops : PageTableOps π} (ledger : Ledger ops)

theorem spec_create (p : π) : Spec (· = p) ops.createUserPageTable
    (fun table q => ledger.book q = ⟨table :: (ledger.book p).made, (ledger.book p).torn⟩)
    (fun q => ledger.book q = ledger.book p) := by
  have h := ledger.create p
  rw [spec_iff]
  refine ⟨fun table q hq => ?_, fun e q hq => ?_⟩
  · rwa [hq] at h
  · rwa [hq] at h

theorem spec_destroy (table : ℕ) (p : π) : Spec (· = p) (ops.destroyUserPageTable table)
    (fun _ q => ledger.book q = ⟨(ledger.book p).made, table :: (ledger.book p).torn⟩)
    (fun q => ledger.book q = ⟨(ledger.book p).made, table :: (ledger.book p).torn⟩) := by
  have h := ledger.destroy table p
  rw [spec_iff]
  refine ⟨fun _ q hq => ?_, fun e q hq => ?_⟩
  · rwa [hq] at h
  · rwa [hq] at h

end Ledger

/-- paging code that only keeps the record, and never fails -/
def recording : PageTableOps Book where
  createUserPageTable b := (.ok (b.made.length + 1), ⟨(b.made.length + 1) :: b.made, b.torn⟩)
  destroyUserPageTable table b := (.ok (), ⟨b.made, table :: b.torn⟩)
  mapAndCopySegmentTo _ _ _ _ _ _ _ := pure ()
  copyToUserInTable _ _ _ := pure ()
  allocUserStackInTable _ _ := pure (0, 0)

end SwiftCore.Launch
