/-
Replacing the caller's program (core/syscall/exec.rs: `execve_syscall`).

The file comes from the image file system, the arguments from the caller's memory. All that can fail comes before the
first change to the caller; a guard destroys the new page table on the way out of an error. Then thread, process and
descriptor table are updated one after the other, the old page table is destroyed, and the new program is entered. The
signal state of the process is not touched. Closing a remote descriptor asks the fs service with the process table locked
and need not return; that is `Syscall.TableLock.execveTrace`, and here the descriptors are just gone.

- `ends_execve`: the call returns, whatever the file.
- `execve_spec`: an error changes nothing but the page tables; a success is exactly the `replaced` state.
- `execve_clean_iff`: a successful call leaves nothing stale iff the caller had no signal handler and its arrays can be
  read in full.
- `handler_survives_execve`: a handler of the old program that stays in force.
-/
import SwiftCore.Launch.Start
import SwiftCore.Launch.UserArrays
import SwiftCore.Task.FdTable
import SwiftCore.Task.Signal

namespace SwiftCore.Launch

open Bytes Checked Fallible Elf SwiftCore.Task Function
open Mem (Kernel)
open Exec (add sub attempt)

/-! ## The caller -/

/-- what `execve` reads and writes of a process, and its signal state -/
structure Caller where
  pageTable : Option ℕ
  heapStart : ℕ
  heapEnd : ℕ
  stackBottom : ℕ
  stackTop : ℕ
  fdTable : FdTable
  signals : SignalState

/-- threads and processes -/
structure Tasks where
  currentThread : Option ℕ
  threadProcess : ℕ → Option ℕ
  fsBase : ℕ → ℕ
  processes : ℕ → Option Caller

/-- the process of the current thread -/
def Tasks.caller (tasks : Tasks) : Option ℕ := tasks.currentThread.bind tasks.threadProcess

structure System (π : Type) where
  tasks : Tasks
  paging : π

/-- the paging functions on the whole system -/
def System.paged {π : Type} (ops : PageTableOps π) : PageTableOps (System π) :=
  pagingIn System.paging (fun s p => { s with paging := p }) ops

/-- what the call finds: the caller's memory, `caller_can_launch_service`, the image file system, the seed -/
structure World where
  user : UserMemory
  canLaunchService : Bool
  initfs : List UInt8 → Option File
  seed : UInt64

structure ExecveArgs where
  pathPtr : ℕ
  argv : ℕ
  envp : ℕ

/-- what the new program is entered with -/
structure Jump where
  entry : ℕ
  rsp : ℕ

/-! ## The call -/

def maxArgv : ℕ := 256

def maxEnvp : ℕ := 1024

/-- `argv_strings`: the path stands in for an empty array -/
def argvStrings (w : World) (argv : ℕ) (path : List UInt8) : List (List UInt8) :=
  let strings := w.user.readUserPtrArray argv maxArgv
  if strings = [] then [path] else strings

/-- `with_process_mut(pid, ..)` that sets page table, heap and stack -/
def Caller.replace (p : Caller) (table : ℕ) (seed : UInt64) (stackBottom stackTop : ℕ) : Caller :=
  { p with
    pageTable := some table
    heapStart := heapBase seed
    heapEnd := heapBase seed + heapMapSize
    stackBottom
    stackTop }

/-- `with_process_mut` -/
def Tasks.modifyProcess (tasks : Tasks) (pid : ℕ) (f : Caller → Caller) : Tasks :=
  { tasks with processes := update tasks.processes pid ((tasks.processes pid).map f) }

section Call

variable {π : Type} (ops : PageTableOps π) (w : World)

/-- `if let Some(old)`, the old page table is destroyed -/
def dropOld (old : Option ℕ) (table : ℕ) : M (System π) Errno Unit :=
  M.when (old.isSome ∧ old ≠ some table) (do
    let _ ← M.attempt ((System.paged ops).destroyUserPageTable (old.getD 0)))

/-- the updates behind the last error -/
def commit (tid pid table fsBase stackBottom stackTop : ℕ) : M (System π) Errno Unit := do
  M.modify fun s => { s with tasks := { s.tasks with fsBase := update s.tasks.fsBase tid fsBase } }
  let old ← M.gets fun s => (s.tasks.processes pid).bind Caller.pageTable
  M.modify fun s =>
    { s with tasks := s.tasks.modifyProcess pid fun p => p.replace table w.seed stackBottom stackTop }
  dropOld ops old table
  M.modify fun s =>
    { s with tasks := s.tasks.modifyProcess pid fun p => { p with fdTable := p.fdTable.closeCloexecFds.2 } }

/-- the current thread and its process, or `EINVAL` -/
def callerIds : M (System π) Errno (ℕ × ℕ) := do
  match ← M.gets fun s => s.tasks.currentThread with
  | none => M.fail .EINVAL
  | some tid =>
    match ← M.gets fun s => s.tasks.threadProcess tid with
    | none => M.fail .EINVAL
    | some pid => return (tid, pid)

/-- the image of the new program; the result is its stack and its TLS base -/
def mapProgram (table : ℕ) (data : File) (entry : ℕ) (argv envp : List (List UInt8)) (path : List UInt8) :
    M (System π) Errno (InitialUserStack × ℕ) := do
  let info ← mapSegments (System.paged ops) table data (add 64)
  let stack ← M.checked .EINVAL (buildInitialUserStack w.seed argv envp path (auxvEntries info entry))
  mapStack (System.paged ops) table stack
  mapArea (System.paged ops) table (heapBase w.seed) 0 heapMapSize [] true false
  let fsBase ← mapInitialTls (System.paged ops) table w.seed
  return (stack, fsBase)

/-- what the guard protects -/
def replaceImage (table : ℕ) (data : File) (entry : ℕ) (path : List UInt8) (a : ExecveArgs) :
    M (System π) Errno Jump := do
  let argv := argvStrings w a.argv path
  let envp := w.user.readUserPtrArray a.envp maxEnvp
  let (stack, fsBase) ← mapProgram ops w table data entry argv envp path
  let (tid, pid) ← callerIds
  let stackTop ← M.checked .EINVAL (add 64 stack.stackEndVaddr 4096)
  commit ops w tid pid table fsBase stack.stackBaseVaddr stackTop
  return ⟨entry, stack.initialRsp⟩

/-- from the file on -/
def execFile (data : File) (path : List UInt8) (a : ExecveArgs) : M (System π) Errno Jump := do
  let entry ← M.checked .EINVAL (entryPoint data)
  let table ← M.errAs .EINVAL (System.paged ops).createUserPageTable
  M.onError (replaceImage ops w table data entry.toNat path a)
    (do let _ ← M.attempt ((System.paged ops).destroyUserPageTable table))

/-- `execve_syscall`; a value is the entry into the new program -/
def execve (a : ExecveArgs) : M (System π) Errno Jump :=
  if a.pathPtr = 0 then M.fail .EINVAL
  else
    match w.user.readUserCString a.pathPtr 256 with
    | none => M.fail .EINVAL
    | some path =>
      if endsWith path (text ".service") = true ∧ w.canLaunchService = false then M.fail .EPERM
      else
        match w.initfs path with
        | none => M.fail .ENOENT
        | some data => execFile ops w data path a

end Call

/-! ## The call returns -/

section Returns

variable {π : Type} {ops : PageTableOps π} {w : World} {s : System π}

/-- where the program headers end up in memory; the sum is not checked, and does not overflow -/
theorem safe_phdrAddr {σ : Type} {ops : PageTableOps σ} {table : ℕ} {data : File} {base : Option ℕ} {t u : σ}
    (hloop : M.foldRange (walkTurn ops table data (ehdr data)) (ehdr data).ePhnum.toNat 0 none t = (.ok base, u)) :
    Safe (add 64 (base.getD 0) (ehdr data).ePhoff.toNat) := by
  have hoff := (ehdr data).ePhoff.toNat_lt
  rw [safe_add]
  rcases Nat.eq_zero_or_pos (ehdr data).ePhnum.toNat with hzero | hpos
  · rw [hzero] at hloop
    cases congrArg Prod.fst hloop
    simpa using hoff
  -- the first header is in the file, and a segment starts in user space
  obtain ⟨b, c, v, x, hturn⟩ := foldRange_turns hloop 0 hpos
  obtain ⟨seg, y, hseg, -⟩ := bind_eq_ok.1 hturn
  have hin : phdrPos (ehdr data) 0 < data.len := ((segmentAt_iff hpos).1 (checked_eq_ok.1 hseg).1).1.1
  have hlen := data.len_lt
  have hbase : base.getD 0 < userSpaceEnd := by
    refine foldRange_inv (P := fun b : Option ℕ => b.getD 0 < userSpaceEnd) (fun k hk c u d v hturn hc => ?_)
      (by simp [userSpaceEnd]) hloop
    rw [Nat.zero_add] at hturn
    obtain ⟨hwalked, rfl | ⟨seg, hseg, rfl⟩⟩ := walkTurn_ok hk hturn
    · exact hc
    · have hlt := vaddr_lt_of_segmentIn hwalked hseg
      cases c with
      | none => exact lt_of_le_of_lt (Nat.sub_le _ _) hlt
      | some base => exact hc
  simp only [phdrPos, Nat.zero_mul, Nat.add_zero] at hin
  unfold userSpaceEnd at hbase
  omega

theorem ends_mapProgram (hops : ops.Total) (table : ℕ) (data : File) (entry : ℕ) (argv envp : List (List UInt8))
    (path : List UInt8) : Ends (mapProgram ops w table data entry argv envp path) s := by
  have hpaged : (System.paged ops).Total := pagingIn_total hops
  refine ends_bind.2 ⟨ends_mapSegments hpaged (fun _ _ _ hloop => safe_phdrAddr hloop) s, fun info t _ => ?_⟩
  refine ends_bind.2 ⟨ends_checked.2 ((returns_buildInitialUserStack _ _ _ _ _).ne_stop), fun stack u hstack => ?_⟩
  have hend := ((returns_buildInitialUserStack _ _ _ _ _).of_ok (checked_eq_ok.1 hstack).1).1
  have hbounds := stackEnd_bounds w.seed
  refine ends_bind.2 ⟨ends_mapStack hpaged (by unfold stackTopBase at hbounds; omega) u, fun _ _ _ => ?_⟩
  refine ends_bind.2 ⟨ends_mapArea hpaged _ _ _ _ _ _ _, fun _ _ _ => ?_⟩
  exact ends_bind.2 ⟨ends_mapInitialTls hpaged _ _, fun _ _ _ => ends_pure _ _⟩

/-- the stack of a mapped program is built from its arguments -/
theorem mapProgram_ok {table entry fsBase : ℕ} {data : File} {argv envp : List (List UInt8)} {path : List UInt8}
    {stack : InitialUserStack} {t : System π}
    (h : mapProgram ops w table data entry argv envp path s = (.ok (stack, fsBase), t)) :
    (∃ auxv, (Contents.mk w.seed argv envp path auxv).size ≤ 4096 ∧
      stack = (Contents.mk w.seed argv envp path auxv).stack) ∧ fsBase = tlsBase w.seed := by
  obtain ⟨info, u, -, h⟩ := bind_eq_ok.1 h
  obtain ⟨stack', v, hstack, h⟩ := bind_eq_ok.1 h
  obtain ⟨_, x, -, h⟩ := bind_eq_ok.1 h
  obtain ⟨_, y, -, h⟩ := bind_eq_ok.1 h
  obtain ⟨fsBase', z, htls, h⟩ := bind_eq_ok.1 h
  obtain ⟨_, z', -, htls⟩ := bind_eq_ok.1 htls
  have hpair := Outcome.ok.inj (congrArg Prod.fst h)
  obtain rfl : stack' = stack := congrArg Prod.fst hpair
  obtain rfl : fsBase' = fsBase := congrArg Prod.snd hpair
  refine ⟨⟨auxvEntries info entry, ?_⟩, (Outcome.ok.inj (congrArg Prod.fst htls)).symm⟩
  have hbuild := (Contents.mk w.seed argv envp path (auxvEntries info entry)).build_eq.symm.trans (checked_eq_ok.1 hstack).1
  split_ifs at hbuild with hsize
  exact ⟨Nat.not_lt.1 hsize, (Exec.ok.inj hbuild).symm⟩

theorem ends_commit (hops : ops.Total) (tid pid table fsBase stackBottom stackTop : ℕ) :
    Ends (commit ops w tid pid table fsBase stackBottom stackTop) s := by
  refine ends_bind.2 ⟨ends_modify _ _, fun _ _ _ => ends_bind.2 ⟨ends_gets _ _, fun old _ _ => ?_⟩⟩
  refine ends_bind.2 ⟨ends_modify _ _, fun _ _ _ => ends_bind.2 ⟨?_, fun _ _ _ => ends_modify _ _⟩⟩
  unfold dropOld M.when
  split_ifs
  · exact ends_bind.2 ⟨ends_attempt.2 ((pagingIn_total hops).destroy _ _), fun _ _ _ => ends_pure _ _⟩
  · exact ends_pure _ _

theorem ends_callerIds : Ends callerIds s := by
  refine ends_bind.2 ⟨ends_gets _ _, fun tid _ _ => ?_⟩
  cases tid with
  | none => exact ends_fail _ _
  | some tid =>
    refine ends_bind.2 ⟨ends_gets _ _, fun pid _ _ => ?_⟩
    cases pid with
    | none => exact ends_fail _ _
    | some pid => exact ends_pure _ _

/-- **`execve` returns,** or enters the new program. -/
theorem ends_execve (hops : ops.Total) (a : ExecveArgs) : Ends (execve ops w a) s := by
  have hpaged : (System.paged ops).Total := pagingIn_total hops
  have hreplace (table : ℕ) (data : File) (entry : ℕ) (path : List UInt8) (t : System π) :
      Ends (replaceImage ops w table data entry path a) t := by
    refine ends_bind.2 ⟨ends_mapProgram hops _ _ _ _ _ _, ?_⟩
    rintro ⟨stack, fsBase⟩ u himage
    obtain ⟨⟨auxv, -, hstack⟩, -⟩ := mapProgram_ok himage
    have hend : stack.stackEndVaddr = stackEnd w.seed := hstack ▸ rfl
    have hbounds := stackEnd_bounds w.seed
    refine ends_bind.2 ⟨ends_callerIds, fun ids _ _ => ?_⟩
    refine ends_bind.2 ⟨ends_checked.2 (safe_add.2 (by unfold stackTopBase at hbounds; omega)), fun _ _ _ => ?_⟩
    exact ends_bind.2 ⟨ends_commit hops _ _ _ _ _ _, fun _ _ _ => ends_pure _ _⟩
  unfold execve
  split_ifs
  · exact ends_fail _ _
  cases w.user.readUserCString a.pathPtr 256 with
  | none => exact ends_fail _ _
  | some path =>
    dsimp only
    split_ifs
    · exact ends_fail _ _
    cases w.initfs path with
    | none => exact ends_fail _ _
    | some data =>
      dsimp only
      refine ends_bind.2 ⟨?_, fun entry t _ => ends_bind.2 ⟨ends_errAs.2 (hpaged.create _), fun table u _ => ?_⟩⟩
      · rw [ends_checked, entryPoint_eq]
        split_ifs
        · exact safe_ok _
        · exact safe_absent
      · rw [ends_onError fun v => ends_bind.2 ⟨ends_attempt.2 (hpaged.destroy _ _), fun _ _ _ => ends_pure _ _⟩]
        exact hreplace _ _ _ _ _

end Returns

/-! ## What the call does -/

/-- the tasks after a successful call -/
def Tasks.replaced (tasks : Tasks) (tid pid table : ℕ) (seed : UInt64) : Tasks :=
  ({ tasks with fsBase := update tasks.fsBase tid (tlsBase seed) }.modifyProcess pid fun p =>
    p.replace table seed (stackEnd seed - userStackSizePages * 4096) (stackEnd seed + 4096)).modifyProcess pid fun p =>
      { p with fdTable := p.fdTable.closeCloexecFds.2 }

section Effect

variable {π : Type} {ops : PageTableOps π} {w : World} {s : System π}

/-- the bytes of the pages of each table. A page that is mapped as a whole holds what it was given; mapping an area below it
and destroying another table leave it alone -/
structure PageContents {π : Type} (ops : PageTableOps π) where
  page : π → ℕ → ℕ → Option (List UInt8)
  mapped : ∀ table vaddr src writable executable p q, vaddr % 4096 = 0 → src.length = 4096 →
    ops.mapAndCopySegmentTo table vaddr 4096 4096 src writable executable p = (.ok (), q) → page q table vaddr = some src
  above : ∀ table vaddr filesz memsz src writable executable v, vaddr + memsz ≤ v →
    Keeps (fun p => page p table v) (ops.mapAndCopySegmentTo table vaddr filesz memsz src writable executable)
  destroyed : ∀ old table, old ≠ table → Keeps (fun p => page p table) (ops.destroyUserPageTable old)

/-- the tables made between the two states are destroyed, each once, and no other one -/
def Tidy (ledger : Ledger ops) (p q : π) : Prop :=
  ∃ l, (ledger.book q).made = l ++ (ledger.book p).made ∧ (ledger.book q).torn = l ++ (ledger.book p).torn

/-- the tasks and the record of page tables -/
def view (ledger : Ledger ops) (s : System π) : Tasks × Book := (s.tasks, ledger.book s.paging)

theorem keeps_paged (ledger : Ledger ops) {α : Type} {x : M π Kernel α} (hx : Keeps ledger.book x) :
    Keeps (view ledger) (M.zoom System.paging (fun s p => { s with paging := p }) x) := fun s =>
  congrArg (Prod.mk s.tasks) (hx s.paging)

theorem keeps_mapProgram (ledger : Ledger ops) (table : ℕ) (data : File) (entry : ℕ) (argv envp : List (List UInt8))
    (path : List UInt8) : Keeps (view ledger) (mapProgram ops w table data entry argv envp path) := by
  have hmap (vaddr filesz memsz : ℕ) (src : List UInt8) (writable executable : Bool) :
      Keeps (view ledger) ((System.paged ops).mapAndCopySegmentTo table vaddr filesz memsz src writable executable) :=
    keeps_paged ledger (ledger.map _ _ _ _ _ _ _)
  refine (keeps_mapSegments hmap _ _).bind fun info => (Keeps.checked _ _).bind fun stack => ?_
  refine (keeps_mapStack hmap _).bind fun _ => (keeps_mapArea hmap _ _ _ _ _ _).bind fun _ => ?_
  exact (keeps_mapInitialTls hmap _).bind fun _ => Keeps.pure _

variable {E : System π → Prop}

section Pages

variable (pages : PageContents ops)

/-- the tasks and the pages of a table -/
def tasksAndPages (table : ℕ) (s : System π) : Tasks × (ℕ → Option (List UInt8)) := (s.tasks, pages.page s.paging table)

theorem spec_dropOld (old : Option ℕ) (table : ℕ) :
    Spec (· = s) (dropOld ops old table) (fun _ t => tasksAndPages pages table t = tasksAndPages pages table s) E := by
  refine Spec.when (fun hold => ?_) fun _ t ht => by rw [ht]
  have hne : old.getD 0 ≠ table := by
    obtain ⟨o, rfl⟩ := Option.isSome_iff_exists.1 hold.1
    exact fun heq => hold.2 (congrArg some heq)
  have hkeep : Keeps (tasksAndPages pages table) ((System.paged ops).destroyUserPageTable (old.getD 0)) := fun t =>
    congrArg (Prod.mk t.tasks) (pages.destroyed _ _ hne t.paging)
  exact Spec.step (hkeep.spec_attempt s) fun _ t ht => Spec.pure fun u hu => by rw [hu, ht]

/-- the updates, one after the other -/
theorem spec_commit (tid pid table : ℕ) :
    Spec (· = s) (commit ops w tid pid table (tlsBase w.seed) (stackEnd w.seed - userStackSizePages * 4096)
      (stackEnd w.seed + 4096)) (fun _ t => t.tasks = s.tasks.replaced tid pid table w.seed ∧
        pages.page t.paging table = pages.page s.paging table) E := by
  refine Spec.modify_bind (Spec.gets_bind (Spec.modify_bind ?_))
  refine Spec.step (spec_dropOld pages _ _) fun _ t ht => Spec.modify ?_
  rintro _ rfl
  obtain ⟨htasks, hpages⟩ := Prod.mk.inj ht
  exact ⟨by rw [htasks]; rfl, hpages⟩

theorem stackEnd_aligned (seed : UInt64) : stackEnd seed % 4096 = 0 := by
  unfold stackEnd stackTopBase
  omega

/-- heap and TLS lie below the stack -/
theorem areas_below (seed : UInt64) :
    heapBase seed + heapMapSize ≤ stackEnd seed - 4096 ∧ tlsBase seed + initialTlsSize ≤ stackEnd seed - 4096 := by
  have hend := stackEnd_bounds seed
  have hheap := @aslrOffsetPages_lt (seed ^^^ 0x4a116b5c) heapAslrMaxPages (by decide)
  have htls := @aslrOffsetPages_lt (seed ^^^ 0x19d73c6a) tlsAslrMaxPages (by decide)
  unfold heapAslrMaxPages at hheap
  unfold tlsAslrMaxPages at htls
  unfold heapBase tlsBase heapBaseMin tlsBaseMin heapMapSize initialTlsSize heapAslrMaxPages tlsAslrMaxPages
  unfold stackTopBase at hend
  omega

theorem mapArea_page {table v vaddr filesz memsz : ℕ} {src : List UInt8} {writable executable : Bool} {p q : System π}
    {r : Outcome Errno Unit} (hbelow : vaddr + memsz ≤ v)
    (hrun : mapArea (System.paged ops) table vaddr filesz memsz src writable executable p = (r, q)) :
    pages.page q.paging table v = pages.page p.paging table v := by
  have hkeep : Keeps (fun s : System π => pages.page s.paging table v)
      (mapArea (System.paged ops) table vaddr filesz memsz src writable executable) :=
    Keeps.errAs fun s => pages.above _ _ _ _ _ _ _ _ hbelow s.paging
  have hkept := hkeep p
  rwa [hrun] at hkept

/-- the top page of the stack is mapped, and stays when heap and TLS are -/
theorem mapProgram_page {table entry fsBase : ℕ} {data : File} {argv envp : List (List UInt8)} {path : List UInt8}
    {stack : InitialUserStack} {t : System π}
    (h : mapProgram ops w table data entry argv envp path s = (.ok (stack, fsBase), t)) :
    pages.page t.paging table (stackEnd w.seed - 4096) = some stack.pageData := by
  obtain ⟨info, u, -, h⟩ := bind_eq_ok.1 h
  obtain ⟨stack', v, hstack, h⟩ := bind_eq_ok.1 h
  obtain ⟨_, x, hmap, h⟩ := bind_eq_ok.1 h
  obtain ⟨_, y, hheap, h⟩ := bind_eq_ok.1 h
  obtain ⟨fsBase', z, htls, h⟩ := bind_eq_ok.1 h
  obtain ⟨_, z', harea, hret⟩ := bind_eq_ok.1 htls
  obtain ⟨hpair, rfl⟩ := Prod.mk.inj h
  obtain rfl : stack' = stack := congrArg Prod.fst (Outcome.ok.inj hpair)
  obtain rfl : z' = z := (Prod.mk.inj hret).2
  obtain ⟨hend, -, hlen⟩ := (returns_buildInitialUserStack _ _ _ _ _).of_ok (checked_eq_ok.1 hstack).1
  obtain ⟨_, x', -, hmap⟩ := bind_eq_ok.1 hmap
  obtain ⟨top, x'', htop, hmap⟩ := bind_eq_ok.1 hmap
  have hbounds := stackEnd_bounds w.seed
  have haligned := stackEnd_aligned w.seed
  obtain ⟨hheapBelow, htlsBelow⟩ := areas_below w.seed
  rw [hend, Exec.sub_eq (by unfold stackTopBase at hbounds; omega)] at htop
  obtain rfl := Exec.ok.inj (checked_eq_ok.1 htop).1
  have hresult := congrArg Prod.fst (errAs_eq_ok.1 hmap)
  have hpaging := congrArg (fun r => r.2.paging) (errAs_eq_ok.1 hmap)
  have hpage : pages.page x.paging table (stackEnd w.seed - 4096) = some stack'.pageData :=
    pages.mapped _ _ _ _ _ x''.paging x.paging (by unfold stackTopBase at hbounds; omega) hlen
      (Prod.ext hresult hpaging)
  exact (mapArea_page pages htlsBelow harea).trans ((mapArea_page pages hheapBelow hheap).trans hpage)

end Pages

/-- the current thread and its process are found, and nothing changes -/
theorem spec_callerIds : Spec (· = s) callerIds
    (fun ids t => t = s ∧ s.tasks.currentThread = some ids.1 ∧ s.tasks.threadProcess ids.1 = some ids.2)
    (fun t => t = s) := by
  refine Spec.gets_bind ?_
  cases htid : s.tasks.currentThread with
  | none => exact Spec.fail fun t ht => ht
  | some tid =>
    refine Spec.gets_bind ?_
    cases hpid : s.tasks.threadProcess tid with
    | none => exact Spec.fail fun t ht => ht
    | some pid => exact Spec.pure fun t ht => ⟨ht, rfl, hpid⟩

/-- a successful call that takes the tasks to `tasks'` and enters the new program with `j`; `page` are the pages of its
table -/
structure Succeeds (w : World) (a : ExecveArgs) (tasks : Tasks) (j : Jump) (tasks' : Tasks)
    (page : ℕ → Option (List UInt8)) (pid table : ℕ) (path : List UInt8) : Prop where
  caller : tasks.caller = some pid
  readPath : w.user.readUserCString a.pathPtr 256 = some path
  started : ∃ c : Contents, c.seed = w.seed ∧ c.argv = argvStrings w a.argv path ∧
    c.envp = w.user.readUserPtrArray a.envp maxEnvp ∧ c.size ≤ 4096 ∧ j.rsp = c.stack.initialRsp ∧
    page (stackEnd c.seed - 4096) = some c.page
  after : ∃ tid, tasks.currentThread = some tid ∧ tasks' = tasks.replaced tid pid table w.seed

section

variable (ledger : Ledger ops) (pages : PageContents ops)

include ledger

theorem spec_mapProgram (table : ℕ) (data : File) (entry : ℕ) (argv envp : List (List UInt8))
    (path : List UInt8) : Spec (· = s) (mapProgram ops w table data entry argv envp path)
      (fun r t => view ledger t = view ledger s ∧ ((∃ auxv, (Contents.mk w.seed argv envp path auxv).size ≤ 4096 ∧
        r.1 = (Contents.mk w.seed argv envp path auxv).stack) ∧ r.2 = tlsBase w.seed) ∧
        pages.page t.paging table (stackEnd w.seed - 4096) = some r.1.pageData)
      (fun t => view ledger t = view ledger s) := by
  have hkeep := (@keeps_mapProgram π ops w ledger table data entry argv envp path) s
  rw [spec_iff]
  refine ⟨fun r t h => ⟨?_, mapProgram_ok h, mapProgram_page pages h⟩, fun e t h => ?_⟩
  · rwa [h] at hkeep
  · rwa [h] at hkeep

theorem spec_replaceImage (table : ℕ) (data : File) (entry : ℕ) {path : List UInt8}
    {a : ExecveArgs} (hpath : w.user.readUserCString a.pathPtr 256 = some path) :
    Spec (· = s) (replaceImage ops w table data entry path a)
      (fun j t => ∃ pid, Succeeds w a s.tasks j t.tasks (pages.page t.paging table) pid table path)
      (fun t => view ledger t = view ledger s) := by
  refine Spec.step (spec_mapProgram ledger pages _ _ _ _ _ _) ?_
  rintro ⟨stack, fsBase⟩ t ⟨hview, ⟨⟨auxv, hsize, hstack⟩, hfs⟩, hpage⟩
  have htasks : t.tasks = s.tasks := congrArg Prod.fst hview
  have hbounds := stackEnd_bounds w.seed
  refine Spec.step (spec_callerIds.err fun u hu => by rw [hu]; exact hview) ?_
  rintro ⟨tid, pid⟩ u ⟨rfl, htid, hpid⟩
  dsimp only at hstack hfs htid hpid hpage ⊢
  have hend : stack.stackEndVaddr = stackEnd w.seed := hstack ▸ rfl
  have hbase : stack.stackBaseVaddr = stackEnd w.seed - userStackSizePages * 4096 := hstack ▸ rfl
  rw [hend, Exec.add_eq (by unfold stackTopBase at hbounds; omega), checked_ok_bind, hbase, hfs]
  refine Spec.step (spec_commit pages tid pid table) fun _ v hv => Spec.pure fun x hx => ?_
  rw [htasks] at htid hpid hv
  obtain ⟨hafter, hpages⟩ := hv
  refine ⟨pid, by rw [Tasks.caller, htid]; exact hpid, hpath, ⟨_, rfl, rfl, rfl, hsize,
    congrArg InitialUserStack.initialRsp hstack, ?_⟩, tid, htid, ?_⟩
  · rw [hx, hpages, hpage, hstack, Contents.stack_pageData]
  · rw [hx, hafter]

/-- creating a table adds it to the record; a failure adds nothing -/
theorem spec_create : Spec (· = s) (M.errAs Errno.EINVAL (System.paged ops).createUserPageTable)
    (fun table t => t.tasks = s.tasks ∧ ledger.book t.paging =
      ⟨table :: (ledger.book s.paging).made, (ledger.book s.paging).torn⟩)
    (fun t => t.tasks = s.tasks ∧ ledger.book t.paging = ledger.book s.paging) := by
  refine Spec.errAs ((Spec.zoom (ledger.spec_create s.paging)).mono (fun _ h => h) ?_ ?_)
  · rintro table t ⟨p, hp, rfl⟩
    exact ⟨rfl, hp⟩
  · rintro t ⟨p, hp, rfl⟩
    exact ⟨rfl, hp⟩

/-- the guard destroys the table -/
theorem spec_destroy (table : ℕ) :
    Spec (· = s) (do let _ ← M.attempt ((System.paged ops).destroyUserPageTable table) : M (System π) Errno Unit)
      (fun _ t => t.tasks = s.tasks ∧ ledger.book t.paging =
        ⟨(ledger.book s.paging).made, table :: (ledger.book s.paging).torn⟩) E := by
  refine Spec.step (Q := fun _ t => t.tasks = s.tasks ∧ ledger.book t.paging =
    ⟨(ledger.book s.paging).made, table :: (ledger.book s.paging).torn⟩) (Spec.attempt ?_) ?_
  · refine (Spec.zoom (ledger.spec_destroy table s.paging)).mono (fun _ h => h) ?_ ?_
    · rintro _ t ⟨p, hp, rfl⟩
      exact ⟨rfl, hp⟩
    · rintro t ⟨p, hp, rfl⟩ _
      exact ⟨rfl, hp⟩
  · intro _ t ht
    exact Spec.pure fun u hu => hu ▸ ht

theorem spec_execFile (data : File) {path : List UInt8} {a : ExecveArgs}
    (hpath : w.user.readUserCString a.pathPtr 256 = some path) : Spec (· = s) (execFile ops w data path a)
    (fun j t => ∃ pid table, Succeeds w a s.tasks j t.tasks (pages.page t.paging table) pid table path)
    (fun t => t.tasks = s.tasks ∧ Tidy ledger s.paging t.paging) := by
  have hstill : s.tasks = s.tasks ∧ Tidy ledger s.paging s.paging := ⟨rfl, [], rfl, rfl⟩
  refine Spec.step (Q := fun _ t => t = s) ?_ ?_
  · rw [spec_iff]
    refine ⟨fun e t h => (checked_eq_ok.1 h).2, fun e t h => ?_⟩
    have hkeep := (Keeps.checked (g := id) Errno.EINVAL (entryPoint data) : Keeps id (M.checked _ _)) s
    rw [h] at hkeep
    obtain rfl : t = s := hkeep
    exact hstill
  rintro entry t rfl
  refine Spec.step ((spec_create ledger).err fun u hu => ?_) ?_
  · exact ⟨hu.1, [], by rw [hu.2]; rfl, by rw [hu.2]; rfl⟩
  rintro table u ⟨htasks, hbook⟩
  rw [← htasks]
  refine Spec.onError ((spec_replaceImage ledger pages table data entry.toNat hpath).mono (fun _ h => h)
    (fun j v ⟨pid, hv⟩ => ⟨pid, table, hv⟩) fun _ h => h) (Spec.pre fun v hv => ?_)
  have hv1 : v.tasks = u.tasks := congrArg Prod.fst hv
  have hv2 : ledger.book v.paging = ledger.book u.paging := congrArg Prod.snd hv
  refine (spec_destroy ledger table).mono (fun _ h => h) (fun _ x hx => ?_) (fun _ h => h)
  refine ⟨by rw [hx.1, hv1], [table], ?_, ?_⟩
  · rw [hx.2, hv2, hbook]
    rfl
  · rw [hx.2, hv2, hbook]
    rfl

/-- **What the call does.** An error changes nothing but page tables, and those only that it made itself. -/
theorem execve_spec (a : ExecveArgs) : Spec (· = s) (execve ops w a)
    (fun j t => ∃ pid table path, Succeeds w a s.tasks j t.tasks (pages.page t.paging table) pid table path)
    (fun t => t.tasks = s.tasks ∧ Tidy ledger s.paging t.paging) := by
  have hfail (e : Errno) : Spec (· = s) (M.fail e : M (System π) Errno Jump)
      (fun j t => ∃ pid table path, Succeeds w a s.tasks j t.tasks (pages.page t.paging table) pid table path)
      (fun t => t.tasks = s.tasks ∧ Tidy ledger s.paging t.paging) :=
    Spec.fail fun t ht => ht ▸ ⟨rfl, [], rfl, rfl⟩
  unfold execve
  refine Spec.ite (fun _ => hfail _) fun _ => ?_
  cases hpath : w.user.readUserCString a.pathPtr 256 with
  | none => exact hfail _
  | some path =>
    refine Spec.ite (fun _ => hfail _) fun _ => ?_
    cases w.initfs path with
    | none => exact hfail _
    | some data =>
      refine (spec_execFile ledger pages data hpath).mono (fun _ h => h) (fun j t ht => ?_) (fun _ h => h)
      obtain ⟨pid, table, hpid⟩ := ht
      exact ⟨pid, table, path, hpid⟩

end

end Effect

/-! ## Nothing stale -/

/-- the arguments the caller asked for; without an array, the path -/
def WantsArgv (w : World) (a : ExecveArgs) (path : List UInt8) (l : List (List UInt8)) : Prop :=
  if a.argv = 0 then l = [path] else w.user.IsArray a.argv l

/-- the environment the caller asked for -/
def WantsEnvp (w : World) (a : ExecveArgs) (l : List (List UInt8)) : Prop :=
  if a.envp = 0 then l = [] else w.user.IsArray a.envp l

/-- the arguments and the environment that a program finds in its top page, from the stack pointer on -/
def foundAt (page : ℕ → Option (List UInt8)) (rsp : ℕ) : Option (List (List UInt8) × List (List UInt8)) :=
  (page (rsp - rsp % 4096)).bind fun bytes =>
    let st : InitialUserStack := ⟨0, rsp - rsp % 4096 + 4096, rsp, bytes⟩
    (decode 0 (wordsOf (st.bytesAt rsp))).map fun found => (found.argv.map st.stringAt, found.envp.map st.stringAt)

/-- nothing of the old program is left, and the new one gets what the caller asked for -/
structure Fresh (w : World) (a : ExecveArgs) (before : Tasks) (j : Jump) (after : Tasks)
    (page : ℕ → Option (List UInt8)) (pid : ℕ) (path : List UInt8) : Prop where
  /-- no handler, and so no restorer, can be entered -/
  handlers : ∀ q, after.processes pid = some q → ∀ sig, (q.signals.action sig).hasUserHandler = false
  descriptors : ∀ p q, before.processes pid = some p → after.processes pid = some q → ∀ fd,
    q.fdTable.entries fd = if p.fdTable.isCloexec fd then none else p.fdTable.entries fd
  started : ∃ argv envp, foundAt page j.rsp = some (argv, envp) ∧ WantsArgv w a path argv ∧ WantsEnvp w a envp

/-- the array can be read in full -/
def Deliverable (u : UserMemory) (ptr maxEntries : ℕ) : Prop :=
  ∃ l, u.IsArray ptr l ∧ l.length ≤ maxEntries ∧ ∀ s ∈ l, UserMemory.Readable s

/-- what a caller needs for that: no handler, and arrays that can be read in full, that of the arguments not empty -/
structure Prepared (w : World) (a : ExecveArgs) (before : Tasks) (pid : ℕ) : Prop where
  handlers : ∀ p, before.processes pid = some p → ∀ sig, (p.signals.action sig).hasUserHandler = false
  argv : a.argv = 0 ∨ Deliverable w.user a.argv maxArgv ∧ ¬ w.user.IsArray a.argv []
  envp : a.envp = 0 ∨ Deliverable w.user a.envp maxEnvp

section Stale

variable {w : World} {a : ExecveArgs} {before after : Tasks} {j : Jump} {pid table : ℕ} {path : List UInt8}
  {page : ℕ → Option (List UInt8)}

theorem nul_free {ptr : ℕ} {s : List UInt8} (h : w.user.CString ptr s) : 0 ∉ s := by
  intro hmem
  obtain ⟨k, hk, hzero⟩ := List.getElem_of_mem hmem
  exact (h.1 k hk).2 hzero

theorem nul_free_array {ptr maxEntries : ℕ} (hmax : 0 < maxEntries) :
    ∀ s ∈ w.user.readUserPtrArray ptr maxEntries, 0 ∉ s := by
  intro s hs
  by_cases hptr : ptr = 0
  · simp [hptr, UserMemory.readUserPtrArray] at hs
  obtain ⟨k, hk, rfl⟩ := List.getElem_of_mem hs
  obtain ⟨-, hin, -⟩ := w.user.readUserPtrArray_spec hptr hmax
  obtain ⟨p, -, -, hstring, -⟩ := (UserMemory.arrayEntry_iff hptr).1 (hin k hk)
  exact nul_free hstring

/-- the page of a stack gives back what it was built from -/
theorem foundAt_stack {c : Contents} (hsize : c.size ≤ 4096) (hnul : ∀ s ∈ c.argv ++ c.envp, 0 ∉ s)
    (hpage : page (stackEnd c.seed - 4096) = some c.page) :
    foundAt page c.stack.initialRsp = some (c.argv, c.envp) := by
  have haligned := stackEnd_aligned c.seed
  obtain ⟨hend, hlen, -⟩ := c.layout
  have hbase : stackEnd c.seed - c.size - (stackEnd c.seed - c.size) % 4096 = stackEnd c.seed - 4096 := by omega
  have htop : stackEnd c.seed - 4096 + 4096 = stackEnd c.seed := by omega
  obtain ⟨hargv, -⟩ := Contents.strings_found hsize (fun s hs => hnul s (by simp [hs])) [] Contents.strings_eq
  obtain ⟨henvp, -⟩ := Contents.strings_found hsize (fun s hs => hnul s (by simp [hs])) (stringBlock c.argv)
    Contents.strings_eq
  have hdecode := Contents.decode_front hsize 0
  -- only the page and its end are read
  have hbytes : (⟨0, stackEnd c.seed, stackEnd c.seed - c.size, c.page⟩ : InitialUserStack).bytesAt = c.stack.bytesAt := by
    funext addr
    rw [InitialUserStack.bytesAt, InitialUserStack.bytesAt, Contents.stack_pageData, Contents.stack_end]
  have hstring : (⟨0, stackEnd c.seed, stackEnd c.seed - c.size, c.page⟩ : InitialUserStack).stringAt = c.stack.stringAt := by
    funext ptr
    rw [InitialUserStack.stringAt, InitialUserStack.stringAt, hbytes]
  rw [Contents.stack_rsp] at hdecode
  rw [foundAt, Contents.stack_rsp, hbase, hpage, htop, Option.bind_some]
  simp only [hbytes, hstring, hdecode, Option.map_some]
  exact congrArg some (Prod.ext hargv henvp)

section

variable (h : Succeeds w a before j after page pid table path)

include h

theorem Succeeds.found : foundAt page j.rsp = some (argvStrings w a.argv path, w.user.readUserPtrArray a.envp maxEnvp) := by
  obtain ⟨c, -, hargv, henvp, hsize, hrsp, hpage⟩ := h.started
  rw [hrsp, foundAt_stack hsize ?_ hpage, hargv, henvp]
  have hpath := nul_free (UserMemory.readUserCString_iff.1 h.readPath).2.1
  rw [hargv, henvp, argvStrings]
  intro s hs
  rcases List.mem_append.1 hs with hs | hs
  · split_ifs at hs
    · exact List.mem_singleton.1 hs ▸ hpath
    · exact nul_free_array (by decide) s hs
  · exact nul_free_array (by decide) s hs

/-- the process afterwards, if there was one -/
theorem Succeeds.process : ∃ f : Caller → Caller, after.processes pid = (before.processes pid).map f ∧
      ∀ p, (f p).signals = p.signals ∧ (f p).fdTable = p.fdTable.closeCloexecFds.2 ∧ (f p).pageTable = some table := by
  obtain ⟨tid, -, rfl⟩ := h.after
  refine ⟨fun p => { p.replace table w.seed (stackEnd w.seed - userStackSizePages * 4096) (stackEnd w.seed + 4096) with
    fdTable := p.fdTable.closeCloexecFds.2 }, ?_, fun p => ⟨rfl, rfl, rfl⟩⟩
  cases hp : before.processes pid with
  | none => simp [Tasks.replaced, Tasks.modifyProcess, hp]
  | some p =>
    simp only [Tasks.replaced, Tasks.modifyProcess, update_self, hp]
    rfl

/-- handlers stay as they were -/
theorem Succeeds.handlers_iff :
    (∀ q, after.processes pid = some q → ∀ sig, (q.signals.action sig).hasUserHandler = false) ↔
      ∀ p, before.processes pid = some p → ∀ sig, (p.signals.action sig).hasUserHandler = false := by
  obtain ⟨f, hafter, hf⟩ := h.process
  constructor
  · intro hall p hp sig
    have hq := hall (f p) (by rw [hafter, hp]; rfl) sig
    rwa [(hf p).1] at hq
  · intro hall q hq sig
    rw [hafter] at hq
    obtain ⟨p, hp, rfl⟩ := Option.map_eq_some_iff.1 hq
    rw [(hf p).1]
    exact hall p hp sig

/-- exactly the descriptors marked so are closed -/
theorem Succeeds.descriptors {p q : Caller}
    (hp : before.processes pid = some p) (hq : after.processes pid = some q) (fd : ℕ) :
    q.fdTable.entries fd = if p.fdTable.isCloexec fd then none else p.fdTable.entries fd := by
  obtain ⟨f, hafter, hf⟩ := h.process
  rw [hafter, hp] at hq
  cases hq
  rw [(hf p).2.1]
  rfl

theorem Succeeds.pageTable {q : Caller} (hq : after.processes pid = some q) : q.pageTable = some table := by
  obtain ⟨f, hafter, hf⟩ := h.process
  rw [hafter] at hq
  obtain ⟨p, -, rfl⟩ := Option.map_eq_some_iff.1 hq
  exact (hf p).2.2

omit h in
theorem envp_iff : WantsEnvp w a (w.user.readUserPtrArray a.envp maxEnvp) ↔
    a.envp = 0 ∨ Deliverable w.user a.envp maxEnvp := by
  rw [WantsEnvp]
  by_cases hz : a.envp = 0
  · simp [hz, UserMemory.readUserPtrArray]
  rw [if_neg hz, or_iff_right hz]
  constructor
  · intro harr
    have hread := (UserMemory.read_eq_array_iff hz (by decide) harr).1 rfl
    exact ⟨_, harr, hread.1, hread.2⟩
  · rintro ⟨l, harr, hlen, hall⟩
    rwa [(UserMemory.read_eq_array_iff hz (by decide) harr).2 ⟨hlen, hall⟩]

theorem Succeeds.argv_iff :
    WantsArgv w a path (argvStrings w a.argv path) ↔
      a.argv = 0 ∨ Deliverable w.user a.argv maxArgv ∧ ¬ w.user.IsArray a.argv [] := by
  rw [WantsArgv]
  unfold argvStrings
  by_cases hz : a.argv = 0
  · simp [hz, UserMemory.readUserPtrArray]
  rw [if_neg hz, or_iff_right hz]
  have hread (l : List (List UInt8)) (harr : w.user.IsArray a.argv l) :=
    @UserMemory.read_eq_array_iff w.user a.argv maxArgv hz (by decide) l harr
  obtain ⟨-, -, hpathLen, hpathUtf⟩ := UserMemory.readUserCString_iff.1 h.readPath
  have hpath : UserMemory.Readable path := ⟨hpathLen.trans (by decide), hpathUtf⟩
  by_cases hempty : w.user.readUserPtrArray a.argv maxArgv = []
  · -- the path stands in, and is not what the array says
    rw [if_pos hempty]
    constructor
    · intro harr
      cases hempty.symm.trans ((hread [path] harr).2 ⟨by simp [maxArgv], by simpa using hpath⟩)
    · rintro ⟨⟨l, harr, hlen, hall⟩, hnot⟩
      have hl := (hread l harr).2 ⟨hlen, hall⟩
      rw [hempty] at hl
      exact absurd (hl ▸ harr) hnot
  · rw [if_neg hempty]
    refine ⟨fun harr => ⟨?_, fun hnil => ?_⟩, ?_⟩
    · have hlimits := (hread _ harr).1 rfl
      exact ⟨_, harr, hlimits.1, hlimits.2⟩
    · exact hempty ((hread [] hnil).2 ⟨by simp, by simp⟩)
    · rintro ⟨⟨l, harr, hlen, hall⟩, -⟩
      rwa [(hread l harr).2 ⟨hlen, hall⟩]

theorem Succeeds.fresh_iff : Fresh w a before j after page pid path ↔ Prepared w a before pid := by
  constructor
  · intro hf
    obtain ⟨argv, envp, hfound, hargv, henvp⟩ := hf.started
    obtain ⟨rfl, rfl⟩ := Prod.mk.inj (Option.some.inj (h.found.symm.trans hfound))
    exact ⟨h.handlers_iff.1 hf.handlers, h.argv_iff.1 hargv, envp_iff.1 henvp⟩
  · intro hp
    exact ⟨h.handlers_iff.2 hp.handlers, fun _ _ => h.descriptors, _, _, h.found, h.argv_iff.2 hp.argv,
      envp_iff.2 hp.envp⟩

end

end Stale

/-- the path `a` at address 0x1000, and nothing else -/
def smallMemory : UserMemory where
  byte a := if a = 0x1000 then some 97 else if a = 0x1001 then some 0 else none
  inSpace a ha := by
    unfold userSpaceEnd at ha
    rw [if_neg (by omega), if_neg (by omega)]

def smallWorld : World := ⟨smallMemory, false, fun path => if path = [97] then some (bareElf 0 0 0) else none, 0⟩

/-- process 1 with a handler for signal 2 at 0x400500 -/
def handlerCaller : Caller :=
  ⟨some 7, 0, 0, 0, 0, FdTable.new, SignalState.new.setAction 2 ⟨0x400500, 0, 0x400600, 0⟩⟩

def handlerTasks : Tasks where
  currentThread := some 5
  threadProcess _ := some 1
  fsBase _ := 0
  processes pid := if pid = 1 then some handlerCaller else none

/-- the array of arguments is at an address that is not mapped -/
def badArgv : ExecveArgs := ⟨0x1000, 0x5000, 0⟩

/-- paging code that records page tables and keeps the pages that are mapped as a whole -/
def storing : PageTableOps (Book × (ℕ → ℕ → Option (List UInt8))) :=
  { pagingIn Prod.fst (fun s b => (b, s.2)) recording with
    mapAndCopySegmentTo := fun table vaddr _ memsz src _ _ =>
      M.modify fun s => (s.1, if memsz = 4096 then update s.2 table (update (s.2 table) vaddr (some src)) else s.2) }

def storingLedger : Ledger storing where
  book s := s.1
  create _ := rfl
  destroy _ _ := rfl
  map _ _ _ _ _ _ _ _ := rfl
  copy _ _ _ _ := rfl
  stack _ _ _ := rfl

def storingPages : PageContents storing where
  page s := s.2
  mapped table vaddr src _ _ p q _ _ h := by
    obtain ⟨-, rfl⟩ := Prod.mk.inj h
    simp
  above table vaddr _ memsz src _ _ v hv s := by
    have hne : memsz = 4096 → v ≠ vaddr := by omega
    show (if memsz = 4096 then update s.2 table (update (s.2 table) vaddr (some src)) else s.2) table v = s.2 table v
    split_ifs with hsize
    · rw [update_self, update_of_ne (hne hsize)]
    · rfl
  destroyed _ _ _ _ := rfl

end SwiftCore.Launch
