/-
Starting a program (core/syscall/exec.rs: `exec_with_data`).

The file is mapped into a new page table, then a process, a kernel stack and a thread are made. Up to the kernel stack a
guard destroys the page table on the way out of an error; from there on the code cleans up by hand. Everything the
function calls is a parameter (`StartOps`), as is the seed of the address space randomisation.

- `ends_execWithData`: the function returns iff the scan for `__sinit` does, where the call gets that far.
- `ends_of_startable`, `startable_of_ends`: the same as a condition on file and path.
-/
import SwiftCore.Elf.SymbolScan
import SwiftCore.Launch.InitialStack

namespace SwiftCore.Launch

open Bytes Checked Fallible Elf
open Mem (Kernel)
open Exec (add sub attempt)

/-! ## What the function calls -/

/-- the fields of the new process that `exec_with_data` sets -/
structure NewProcess where
  id : ℕ
  parent : Option ℕ
  pageTable : ℕ
  stackBottom : ℕ
  stackTop : ℕ
  /-- start and end, if the heap could be mapped -/
  heap : Option (ℕ × ℕ)

/-- the fields of the new thread -/
structure NewThread where
  process : ℕ
  entry : ℕ
  rsp : ℕ
  kernelStack : ℕ
  kernelStackSize : ℕ
  fsBase : ℕ

structure StartOps (σ : Type) extends PageTableOps σ where
  /-- the id that `Process::new` draws -/
  newProcessId : M σ Kernel ℕ
  addProcess (process : NewProcess) : M σ Kernel Unit
  removeProcess (pid : ℕ) : M σ Kernel Unit
  /-- `SERVICE_MANAGER_PID.compare_exchange(0, pid)` -/
  claimManager (pid : ℕ) : M σ Kernel Unit
  /-- `SERVICE_MANAGER_PID.compare_exchange(pid, 0)` -/
  releaseManager (pid : ℕ) : M σ Kernel Unit
  allocateKernelStack (size : ℕ) : M σ Kernel ℕ
  addThread (thread : NewThread) : M σ Kernel Unit

/-- every operation returns -/
structure StartOps.Total {σ : Type} (ops : StartOps σ) : Prop extends ops.toPageTableOps.Total where
  newId : ∀ s, Ends ops.newProcessId s
  add : ∀ process s, Ends (ops.addProcess process) s
  remove : ∀ pid s, Ends (ops.removeProcess pid) s
  claim : ∀ pid s, Ends (ops.claimManager pid) s
  release : ∀ pid s, Ends (ops.releaseManager pid) s
  allocate : ∀ size s, Ends (ops.allocateKernelStack size) s
  thread : ∀ thread s, Ends (ops.addThread thread) s

/-! ## The function -/

/-- an ASCII text of the source -/
def text (s : String) : List UInt8 := s.toByteArray.data.toList

/-- `str::ends_with` -/
def endsWith (s suffix : List UInt8) : Bool := suffix.isSuffixOf s

/-- the arguments of `exec_with_data`, with the parent it finds and the seed it draws -/
structure Request where
  data : File
  processName : List UInt8
  execPath : List UInt8
  args : List (List UInt8)
  parent : Option ℕ
  seed : UInt64

namespace Request

variable (r : Request)

def isService : Bool := endsWith r.execPath (text ".service")

def isCoreService : Bool := endsWith r.processName (text "core.service")

/-- the last part of the path, without `.elf` -/
def argv0 : List UInt8 :=
  let baseName := (r.execPath.reverse.takeWhile (· ≠ 47)).reverse
  if endsWith baseName (text ".elf") then baseName.take (baseName.length - 4) else baseName

def allArgs : List (List UInt8) := r.argv0 :: r.args

end Request

/-- `u64::saturating_add` -/
def saturatingAdd (a b : ℕ) : Exec ℕ := .ok (min (a + b) (2 ^ 64 - 1))

/-- the code that calls `__sinit` and then jumps to the entry point -/
def stubCode (sinit entry : ℕ) : List UInt8 :=
  [0x48, 0xB8] ++ leBytes 8 sinit ++ [0xFF, 0xD0] ++ [0x48, 0xB8] ++ leBytes 8 entry ++ [0xFF, 0xE0]

def kernelThreadStackSize : ℕ := 4096 * 32

section Exec

variable {σ : Type} (ops : StartOps σ) (r : Request)

/-- the stub, if there is a `__sinit`; the result is where the thread starts -/
def mapStub (table stackEndVaddr entry : ℕ) : Option UInt64 → M σ Errno ℕ
  | none => pure entry
  | some sinit =>
    let stubAddr := stackEndVaddr + 4096
    if 2 ^ 64 ≤ stubAddr then M.fail .EINVAL
    else do
      let code := stubCode sinit.toNat entry
      match ← M.attempt (ops.mapAndCopySegmentTo table stubAddr code.length 4096 code false true) with
      | .ok _ => return stubAddr
      | .error _ => return entry

/-- the scan for `__sinit`, for services only -/
def findSinit : M σ Errno (Option UInt64) :=
  if r.isService = true then M.checked .EINVAL (sinitScan r.data) else pure none

/-- the part of the image that comes before the process is made -/
def mapImage (table entry : ℕ) : M σ Errno (ℕ × InitialUserStack × Option (ℕ × ℕ)) := do
  let info ← mapSegments ops.toPageTableOps table r.data saturatingAdd
  let sinit ← findSinit r
  let stack ← M.checked .EINVAL (buildInitialUserStack r.seed r.allArgs [] r.execPath (auxvEntries info entry))
  mapStack ops.toPageTableOps table stack
  let heap ← M.attempt (ops.mapAndCopySegmentTo table (heapBase r.seed) 0 heapMapSize [] true false)
  let start ← mapStub ops table stack.stackEndVaddr entry sinit
  return (start, stack, heap.toOption.map fun _ => (heapBase r.seed, heapBase r.seed + heapMapSize))

/-- `if is_core_service { let _ = SERVICE_MANAGER_PID.compare_exchange(pid, 0) }` -/
def unclaim (pid : ℕ) : M σ Errno Unit := do
  M.when (r.isCoreService = true) (do let _ ← M.attempt (ops.releaseManager pid))

/-- the process is added, and its kernel stack allocated -/
def enterProcess (table : ℕ) (process : NewProcess) : M σ Errno ℕ := do
  M.when (r.isCoreService = true) (M.errAs .EINVAL (ops.claimManager process.id))
  match ← M.attempt (ops.addProcess process) with
  | .error _ => do
    unclaim ops r process.id
    M.fail .EINVAL
  | .ok _ => do
    match ← M.attempt (ops.allocateKernelStack kernelThreadStackSize) with
    | .error _ => do
      let _ ← M.attempt (ops.removeProcess process.id)
      unclaim ops r process.id
      let _ ← M.attempt (ops.destroyUserPageTable table)
      M.fail .ENOMEM
    | .ok kstack => return kstack

/-- what the guard protects -/
def prepare (table entry : ℕ) : M σ Errno NewThread := do
  let (start, stack, heap) ← mapImage ops r table entry
  let stackTop ← M.checked .EINVAL (add 64 stack.stackEndVaddr 4096)
  let pid ← M.errAs .EINVAL ops.newProcessId
  let fsBase ← mapInitialTls ops.toPageTableOps table r.seed
  let kstack ← enterProcess ops r table ⟨pid, r.parent, table, stack.stackBaseVaddr, stackTop, heap⟩
  return ⟨pid, start, stack.initialRsp, kstack, kernelThreadStackSize, fsBase⟩

/-- the guard is disarmed; a failure is cleaned up by hand -/
def startThread (table : ℕ) (thread : NewThread) : M σ Errno ℕ := do
  match ← M.attempt (ops.addThread thread) with
  | .ok _ => return thread.process
  | .error _ => do
    let _ ← M.attempt (ops.removeProcess thread.process)
    unclaim ops r thread.process
    let _ ← M.attempt (ops.destroyUserPageTable table)
    M.fail .EINVAL

/-- `elf_loader::entry_point` -/
def entryPoint (data : File) : Exec UInt64 := do
  let eh ← parseElfHeader data
  return eh.eEntry

/-- `exec_with_data` -/
def execWithData : M σ Errno ℕ := do
  let entry ← M.checked .EINVAL (entryPoint r.data)
  if entry = 0 then M.fail .EINVAL
  else do
    let table ← M.errAs .EINVAL ops.createUserPageTable
    let thread ← M.onError (prepare ops r table entry.toNat) (do let _ ← M.attempt (ops.destroyUserPageTable table))
    startThread ops r table thread

end Exec

/-! ## When it returns -/

section Returns

variable {σ : Type} {ops : StartOps σ} {r : Request} {table entry : ℕ} {s : σ}

theorem ends_mapStub (hops : ops.Total) (stackEndVaddr : ℕ) (sinit : Option UInt64) :
    Ends (mapStub ops table stackEndVaddr entry sinit) s := by
  cases sinit with
  | none => exact ends_pure _ _
  | some sinit =>
    rw [mapStub]
    dsimp only
    split_ifs
    · exact ends_fail _ _
    · refine ends_bind.2 ⟨ends_attempt.2 (hops.map _ _ _ _ _ _ _ _), fun res t _ => ?_⟩
      cases res with
      | ok _ => exact ends_pure _ _
      | error _ => exact ends_pure _ _

theorem ends_findSinit : Ends (findSinit r) s ↔ (r.isService = true → Safe (sinitScan r.data)) := by
  unfold findSinit
  split_ifs with hservice
  · rw [ends_checked]
    simp [hservice]
  · simp [hservice]

variable (hops : ops.Total)

include hops

/-- the image is mapped, or refused, iff the scan returns where it is reached -/
theorem ends_mapImage : Ends (mapImage ops r table entry) s ↔ ∀ info t,
      mapSegments ops.toPageTableOps table r.data saturatingAdd s = (.ok info, t) → r.isService = true →
        Safe (sinitScan r.data) := by
  have hwalk : Ends (mapSegments ops.toPageTableOps table r.data saturatingAdd) s :=
    ends_mapSegments hops.toTotal (fun _ _ _ _ => safe_ok _) s
  rw [mapImage, ends_bind, and_iff_right hwalk]
  refine forall_congr' fun info => forall_congr' fun t => forall_congr' fun _ => ?_
  rw [ends_bind, ends_findSinit]
  -- what follows the scan returns
  refine and_iff_left fun sinit t _ => ?_
  refine ends_bind.2 ⟨ends_checked.2 ((returns_buildInitialUserStack _ _ _ _ _).ne_stop), fun stack u hstack => ?_⟩
  have hend := ((returns_buildInitialUserStack _ _ _ _ _).of_ok (checked_eq_ok.1 hstack).1).1
  have hbounds := stackEnd_bounds r.seed
  refine ends_bind.2 ⟨ends_mapStack hops.toTotal (by unfold stackTopBase at hbounds; omega) u, fun _ v _ => ?_⟩
  refine ends_bind.2 ⟨ends_attempt.2 (hops.map _ _ _ _ _ _ _ _), fun heap w _ => ?_⟩
  exact ends_bind.2 ⟨ends_mapStub hops _ _, fun _ _ _ => ends_pure _ _⟩

theorem ends_unclaim (pid : ℕ) : Ends (unclaim ops r pid) s := by
  unfold unclaim M.when
  split_ifs
  · exact ends_bind.2 ⟨ends_attempt.2 (hops.release _ _), fun _ _ _ => ends_pure _ _⟩
  · exact ends_pure _ _

theorem ends_enterProcess (process : NewProcess) : Ends (enterProcess ops r table process) s := by
  refine ends_bind.2 ⟨?_, fun _ t _ => ends_bind.2 ⟨ends_attempt.2 (hops.add _ _), fun res u _ => ?_⟩⟩
  · unfold M.when
    split_ifs
    · exact ends_errAs.2 (hops.claim _ _)
    · exact ends_pure _ _
  cases res with
  | error _ => exact ends_bind.2 ⟨ends_unclaim hops _, fun _ _ _ => ends_fail _ _⟩
  | ok _ =>
    refine ends_bind.2 ⟨ends_attempt.2 (hops.allocate _ _), fun res v _ => ?_⟩
    cases res with
    | ok kstack => exact ends_pure _ _
    | error _ =>
      refine ends_bind.2 ⟨ends_attempt.2 (hops.remove _ _), fun _ _ _ => ?_⟩
      refine ends_bind.2 ⟨ends_unclaim hops _, fun _ _ _ => ?_⟩
      exact ends_bind.2 ⟨ends_attempt.2 (hops.destroy _ _), fun _ _ _ => ends_fail _ _⟩

theorem ends_startThread (thread : NewThread) : Ends (startThread ops r table thread) s := by
  refine ends_bind.2 ⟨ends_attempt.2 (hops.thread _ _), fun res t _ => ?_⟩
  cases res with
  | ok _ => exact ends_pure _ _
  | error _ =>
    refine ends_bind.2 ⟨ends_attempt.2 (hops.remove _ _), fun _ _ _ => ?_⟩
    refine ends_bind.2 ⟨ends_unclaim hops _, fun _ _ _ => ?_⟩
    exact ends_bind.2 ⟨ends_attempt.2 (hops.destroy _ _), fun _ _ _ => ends_fail _ _⟩

omit hops

/-- the stack of a mapped image ends where the seed says -/
theorem mapImage_ok {t : σ} {start : ℕ} {stack : InitialUserStack} {heap : Option (ℕ × ℕ)}
    (h : mapImage ops r table entry s = (.ok (start, stack, heap), t)) : stack.stackEndVaddr = stackEnd r.seed := by
  obtain ⟨info, u, -, h⟩ := bind_eq_ok.1 h
  obtain ⟨sinit, v, -, h⟩ := bind_eq_ok.1 h
  obtain ⟨stack', w, hstack, h⟩ := bind_eq_ok.1 h
  obtain ⟨_, x, -, h⟩ := bind_eq_ok.1 h
  obtain ⟨heap', y, -, h⟩ := bind_eq_ok.1 h
  obtain ⟨start', z, -, h⟩ := bind_eq_ok.1 h
  obtain rfl : stack' = stack := congrArg (fun image => image.2.1) (Outcome.ok.inj (congrArg Prod.fst h))
  exact ((returns_buildInitialUserStack _ _ _ _ _).of_ok (checked_eq_ok.1 hstack).1).1

theorem ends_prepare (hops : ops.Total) :
    Ends (prepare ops r table entry) s ↔ Ends (mapImage ops r table entry) s := by
  rw [prepare, ends_bind]
  refine and_iff_left ?_
  rintro ⟨start, stack, heap⟩ t himage
  have hend := mapImage_ok himage
  have hbounds := stackEnd_bounds r.seed
  refine ends_bind.2 ⟨ends_checked.2 (safe_add.2 (by unfold stackTopBase at hbounds; omega)), fun _ _ _ => ?_⟩
  refine ends_bind.2 ⟨ends_errAs.2 (hops.newId _), fun pid _ _ => ?_⟩
  refine ends_bind.2 ⟨ends_mapInitialTls hops.toTotal _ _, fun _ _ _ => ?_⟩
  exact ends_bind.2 ⟨ends_enterProcess hops _, fun _ _ _ => ends_pure _ _⟩

theorem entryPoint_eq (data : File) :
    entryPoint data = if IsElf data then .ok (ehdr data).eEntry else .absent := by
  rw [entryPoint, parseElfHeader_eq]
  split_ifs
  · rfl
  · rfl

/-- when `exec_with_data` returns, up to the paging code's answers -/
theorem ends_execWithData (hops : ops.Total) :
    Ends (execWithData ops r) s ↔ (IsElf r.data → (ehdr r.data).eEntry ≠ 0 → ∀ table t,
      ops.createUserPageTable s = (.ok table, t) → ∀ info u,
        mapSegments ops.toPageTableOps table r.data saturatingAdd t = (.ok info, u) → r.isService = true →
          Safe (sinitScan r.data)) := by
  have hcleanup (table : ℕ) (t : σ) :
      Ends (do let _ ← M.attempt (ops.destroyUserPageTable table) : M σ Errno Unit) t :=
    ends_bind.2 ⟨ends_attempt.2 (hops.destroy _ _), fun _ _ _ => ends_pure _ _⟩
  rw [execWithData, entryPoint_eq]
  by_cases helf : IsElf r.data
  swap
  · rw [if_neg helf]
    exact ⟨fun _ h => absurd h helf, fun _ => ends_bind.2 ⟨ends_fail _ _, fun _ _ h => (nomatch h)⟩⟩
  rw [if_pos helf, ends_bind]
  by_cases hentry : (ehdr r.data).eEntry = 0
  · refine ⟨fun _ _ h => absurd hentry h, fun _ => ⟨ends_pure _ _, fun e t he => ?_⟩⟩
    cases (checked_eq_ok.1 he).1
    rw [if_pos hentry]
    exact ends_fail _ _
  constructor
  · rintro ⟨-, h⟩ - - table t hcreate
    have hends := h _ s rfl
    rw [if_neg hentry, ends_bind] at hends
    have hends := (ends_bind.1 (hends.2 table t (errAs_eq_ok.2 hcreate))).1
    rw [ends_onError (hcleanup table), ends_prepare hops, ends_mapImage hops] at hends
    exact hends
  · intro h
    refine ⟨ends_pure _ _, fun e t he => ?_⟩
    obtain ⟨hvalue, rfl⟩ := checked_eq_ok.1 he
    cases hvalue
    rw [if_neg hentry]
    refine ends_bind.2 ⟨ends_errAs.2 (hops.create _), fun table u hcreate => ?_⟩
    refine ends_bind.2 ⟨?_, fun thread v _ => ends_startThread hops thread⟩
    rw [ends_onError (hcleanup table), ends_prepare hops, ends_mapImage hops]
    exact h helf hentry table u (errAs_eq_ok.1 hcreate)

/-! ## The condition on file and path -/

/-- what `exec_with_data` needs: a service whose headers it gets past can be scanned -/
def Startable (r : Request) : Prop :=
  let eh := ehdr r.data
  IsElf r.data → eh.eEntry ≠ 0 → eh.ePhentsize ≠ 0 → (∀ i < eh.ePhnum.toNat, Walked r.data eh i) →
    r.isService = true → Scannable r.data

/-- a walk that ends well has got past every header -/
theorem walked_of_mapSegments {data : File} (helf : IsElf data) {info : PhdrInfo} {t : σ}
    (h : mapSegments ops.toPageTableOps table data saturatingAdd s = (.ok info, t)) :
    (ehdr data).ePhentsize ≠ 0 ∧ ∀ i < (ehdr data).ePhnum.toNat, Walked data (ehdr data) i := by
  rw [mapSegments, parseElfHeader_eq, if_pos helf] at h
  by_cases hsize : (ehdr data).ePhentsize = 0
  · simp [attempt, M.checked, helf.2.2, hsize, M.fail] at h
  refine ⟨hsize, fun i hi => ?_⟩
  rw [attempt, M.checked, pure_bind_apply] at h
  dsimp only at h
  rw [if_neg (not_not_intro helf.2.2), if_neg hsize] at h
  obtain ⟨base, u, hloop, -⟩ := bind_eq_ok.1 h
  obtain ⟨b, c, v, w, hturn⟩ := foldRange_turns hloop i hi
  rw [Nat.zero_add, walkTurn] at hturn
  obtain ⟨seg, x, hseg, -⟩ := bind_eq_ok.1 hturn
  exact ((segmentAt_iff hi).1 (checked_eq_ok.1 hseg).1).1

/-- **A startable request is started or refused.** -/
theorem ends_of_startable (hops : ops.Total) (hstart : Startable r) : Ends (execWithData ops r) s := by
  rw [ends_execWithData hops]
  intro helf hentry table t _ info u hwalk hservice
  obtain ⟨hsize, hwalked⟩ := walked_of_mapSegments helf hwalk
  exact (safe_sinitScan r.data).2 fun _ => hstart helf hentry hsize hwalked hservice

end Returns

/-- calls that do nothing and never fail -/
def obligingStart : StartOps Unit where
  toPageTableOps := obliging
  newProcessId := pure 1
  addProcess _ := pure ()
  removeProcess _ := pure ()
  claimManager _ := pure ()
  releaseManager _ := pure ()
  allocateKernelStack _ := pure 1
  addThread _ := pure ()

theorem obligingStart_total : obligingStart.Total where
  toTotal := obliging_total
  newId _ := ends_pure _ _
  add _ _ := ends_pure _ _
  remove _ _ := ends_pure _ _
  claim _ _ := ends_pure _ _
  release _ _ := ends_pure _ _
  allocate _ _ := ends_pure _ _
  thread _ _ := ends_pure _ _

/-- with obliging paging code the walk gets to its end, if no header is refused -/
theorem mapSegments_obliging {data : File} {table : ℕ} (helf : IsElf data) (hsize : (ehdr data).ePhentsize ≠ 0)
    (hwalked : ∀ i < (ehdr data).ePhnum.toNat, Walked data (ehdr data) i) :
    ∃ info, mapSegments obliging table data saturatingAdd () = (.ok info, ()) := by
  obtain ⟨base, hloop⟩ := @foldRange_still Unit Errno (Option ℕ) (walkTurn obliging table data (ehdr data))
    (ehdr data).ePhnum.toNat 0 () (by
      intro i hi base
      have hseg := (segmentAt_iff hi).2 ⟨hwalked i hi, rfl⟩
      rw [Nat.zero_add, walkTurn, ok_bind (checked_eq_ok.2 ⟨hseg, rfl⟩)]
      cases segmentIn data (ehdr data) i with
      | none => exact ⟨base, rfl⟩
      | some seg => exact ⟨_, rfl⟩) none
  rw [mapSegments, parseElfHeader_eq, if_pos helf, attempt, M.checked, pure_bind_apply]
  dsimp only
  rw [if_neg (not_not_intro helf.2.2), if_neg hsize, ok_bind hloop]
  exact ⟨_, rfl⟩

/-- **And no other request is,** with calls that do not fail. -/
theorem startable_of_ends {r : Request} (hends : Ends (execWithData obligingStart r) ()) : Startable r := by
  rw [ends_execWithData obligingStart_total] at hends
  intro helf hentry hsize hwalked hservice
  obtain ⟨info, hwalk⟩ := @mapSegments_obliging r.data 0 helf hsize hwalked
  exact (safe_sinitScan r.data).1 (hends helf hentry 0 () rfl info () hwalk hservice) helf

end SwiftCore.Launch
