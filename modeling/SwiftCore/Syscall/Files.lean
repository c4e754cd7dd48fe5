/-
The system of descriptor tables: processes, the pipe table, the shared counters of remote handles, and the close requests
sent to the fs service (`core/syscall/fs.rs`, `pipe.rs`, `process.rs` and the `Drop` of `core/task/fd_table.rs`).

Handles come into being in `open`, `pipe2`, `dup`, `dup2` and `fork`; they are dropped by `close`, by `dup2` over an open
descriptor, by close-on-exec, with the table of a removed process, and when no free descriptor is left for a new one.
`dropHandle` is `impl Drop for FileHandle`.

What the environment decides is part of the step: the backend's answer to an open (`Opened`), whether the later
allocations of `fork` succeed, whether a user pointer can be written. `service k` says whether the fs service takes the
`k`-th close request (it may not run, or its mailbox may be full); a request is taken to return, with or without an
answer.

`closes` and `opened` are ghost logs. `opened` lists the remote descriptors obtained, and the counter of the `k`-th one is
counter `k`; `closes` lists the `OP_CLOSE` requests sent, each with the counter of the descriptor it was made for.
-/
import SwiftCore.Syscall.Pipe
import SwiftCore.Task.FdTable

namespace SwiftCore.Syscall.Files

open SwiftCore.Task Function

def maxProcesses : ℕ := 64

structure Process where
  id : ℕ
  fdTable : FdTable

structure Sys where
  procs : ℕ → Option Process
  nextPid : ℕ
  pipes : PipeTable
  /-- the values of the shared counters; there are at most as many handles as descriptors, so none overflows -/
  refs : ℕ → ℕ
  opened : List ℕ
  closes : List (Option ℕ × ℕ)
  /-- close requests made so far -/
  requests : ℕ
  service : ℕ → Bool

def init (service : ℕ → Bool) : Sys := ⟨fun _ => none, 1, PipeTable.new, fun _ => 0, [], [], 0, service⟩

/-! ## Processes and their tables -/

variable (st : Sys)

/-- the process `pid` and its slot -/
def Sys.find (pid : ℕ) : Option (ℕ × Process) :=
  (List.range maxProcesses).findSome? fun s =>
    match st.procs s with
    | some p => if p.id = pid then some (s, p) else none
    | none => none

def Sys.setTable (s : ℕ) (p : Process) (t : FdTable) : Sys :=
  { st with procs := update st.procs s (some { p with fdTable := t }) }

/-- `with_fd_table(pid, |t| t.get(fd))` -/
def Sys.handle (pid fd : ℕ) : Option FileHandle := (st.find pid).bind fun sp => sp.2.fdTable.get fd

/-! ## Handles -/

/-- `close_via_fs_service` -/
def Sys.closeRemote (counter : Option ℕ) (fdRemote : ℕ) : Sys :=
  { st with
    requests := st.requests + 1
    closes := if st.service st.requests then st.closes ++ [(counter, fdRemote)] else st.closes }

/-- `impl Drop for FileHandle` -/
def Sys.dropHandle (h : FileHandle) : Sys :=
  if h.isRemote then
    match h.remoteRefs with
    | some a =>
      let st' := { st with refs := update st.refs a (st.refs a - 1) }
      if st.refs a = 1 then st'.closeRemote (some a) h.fdRemote else st'
    | none => st.closeRemote none h.fdRemote
  else st

def Sys.dropAll (hs : List FileHandle) : Sys := hs.foldl Sys.dropHandle st

/-- the `fetch_add` of `clone_remote_refs` -/
def Sys.bump (h : FileHandle) : Sys :=
  match h.clone.remoteRefs with
  | some a => { st with refs := update st.refs a (st.refs a + 1) }
  | none => st

def Sys.bumpAll (hs : List FileHandle) : Sys := hs.foldl Sys.bump st

/-- `with_fd_table_mut(pid, |t| t.alloc(h, cloexec))`; without process or free descriptor the handle is dropped -/
def Sys.allocHandle (pid : ℕ) (h : FileHandle) (cloexec : Bool) : Option ℕ × Sys :=
  match st.find pid with
  | none => (none, st.dropHandle h)
  | some (s, p) =>
    match p.fdTable.alloc h cloexec with
    | none => (none, st.dropHandle h)
    | some (fd, t) => (some fd, st.setTable s p t)

/-! ## System calls -/

def oCloexec : ℕ := 0x80000

def hasCloexec (flags : ℕ) : Bool := flags &&& oCloexec ≠ 0

def Sys.close (pid fd : ℕ) : Except Errno ℕ × Sys :=
  if fd < fdBase ∨ processMaxFds ≤ fd then (.error .EBADF, st)
  else
    match st.find pid with
    | none => (.error .EBADF, st)
    | some (s, p) =>
      match p.fdTable.take fd with
      | (none, _) => (.error .EBADF, st)
      | (some h, t) => (.ok 0, (st.setTable s p t).dropHandle h)

/-- the end of `dup` and of a local `open` -/
def Sys.allocOrENOSYS (pid : ℕ) (h : FileHandle) (cloexec : Bool) : Except Errno ℕ × Sys :=
  match st.allocHandle pid h cloexec with
  | (some fd, st) => (.ok fd, st)
  | (none, st) => (.error .ENOSYS, st)

def Sys.dup (pid fd : ℕ) : Except Errno ℕ × Sys :=
  if fd < fdBase then st.allocOrENOSYS pid FileHandle.tty false
  else
    match st.handle pid fd with
    | none => (.error .EBADF, st)
    | some h => (st.bump h).allocOrENOSYS pid h.clone false

/-- the handle `dup2` copies, with its counter bumped -/
def Sys.cloneForDup2 (pid oldFd : ℕ) : Option (FileHandle × Sys) :=
  if oldFd < fdBase then some (FileHandle.tty, st) else (st.handle pid oldFd).map fun h => (h.clone, st.bump h)

def Sys.dup2 (pid oldFd newFd : ℕ) : Except Errno ℕ × Sys :=
  if newFd < fdBase ∨ processMaxFds ≤ newFd then (.error .EBADF, st)
  else if oldFd = newFd then (if (st.handle pid oldFd).isSome then .ok oldFd else .error .EBADF, st)
  else
    match st.cloneForDup2 pid oldFd with
    | none => (.error .EBADF, st)
    | some (h, st) =>
      match st.find pid with
      | none => (.ok newFd, st.dropHandle h)
      | some (s, p) =>
        -- an open `newFd` is closed first
        let (old, t) := p.fdTable.take newFd
        (.ok newFd, (st.setTable s p (t.set newFd (some h) 0)).dropAll old.toList)

/-- what the file system says to an `open`: an error, data that the kernel holds, or a descriptor of the backend -/
inductive Opened where
  | failed (e : Errno)
  | loc (data : List UInt8) (pos : ℕ) (dirPath : Option String)
  | remote (fdRemote : ℕ) (dirPath : Option String)

/-- `open_resolved_for_pid` from the answer of the file system on -/
def Sys.openResolved (pid : ℕ) (o : Opened) (flags : ℕ) : Except Errno ℕ × Sys :=
  match o with
  | .failed e => (.error e, st)
  | .loc data pos dirPath => st.allocOrENOSYS pid (FileHandle.newLocal data pos dirPath flags) (hasCloexec flags)
  | .remote fdRemote dirPath =>
    let a := st.opened.length
    let st := { st with opened := st.opened ++ [fdRemote], refs := update st.refs a 1 }
    match st.allocHandle pid (FileHandle.newRemote fdRemote a dirPath flags) (hasCloexec flags) with
    | (some fd, st) => (.ok fd, st)
    | (none, st) => (.error .ENOSYS, st.closeRemote (some a) fdRemote)

/-- `clone_fd_table_for_fork`, or the empty table of a new process -/
def Sys.cloneTable (pid : ℕ) : FdTable × Sys :=
  match st.find pid with
  | none => (FdTable.new, st)
  | some (_, p) => (p.fdTable.cloneForFork, st.bumpAll p.fdTable.handles)

/-- `fork` from the copy of the descriptors on; `ok`: stack and thread of the child can be allocated -/
def Sys.fork (pid : ℕ) (ok : Bool) : Except Errno ℕ × Sys :=
  let (table, st) := st.cloneTable pid
  let childId := st.nextPid
  let st := { st with nextPid := childId + 1 }
  match SlotTable.firstFree 0 maxProcesses st.procs with
  | none => (.error .ENOMEM, st.dropAll table.handles)
  | some s =>
    if ok then (.ok childId, { st with procs := update st.procs s (some ⟨childId, table⟩) })
    else (.error .ENOMEM, st.dropAll table.handles)

/-- a process that starts with an empty table -/
def Sys.spawn : Sys :=
  match SlotTable.firstFree 0 maxProcesses st.procs with
  | none => { st with nextPid := st.nextPid + 1 }
  | some s =>
    { st with procs := update st.procs s (some ⟨st.nextPid, FdTable.new⟩), nextPid := st.nextPid + 1 }

/-- the close-on-exec part of `execve` -/
def Sys.closeCloexec (pid : ℕ) : Sys :=
  match st.find pid with
  | none => st
  | some (s, p) => (st.setTable s p p.fdTable.closeCloexecFds.2).dropAll p.fdTable.closeCloexecFds.1

/-- `remove_process` and `reap_zombie_child`: the table is dropped with the process -/
def Sys.removeProcess (pid : ℕ) : Sys :=
  match st.find pid with
  | none => st
  | some (s, p) => { st with procs := update st.procs s none }.dropAll p.fdTable.handles

/-- `fcntl(F_SETFD)` -/
def Sys.setFd (pid fd : ℕ) (cloexec : Bool) : Sys :=
  match st.find pid with
  | none => st
  | some (s, p) => st.setTable s p (p.fdTable.setFlags fd (if cloexec then fdCloexec else 0)).2

/-- `pipe2_syscall`; `ptrValid`, `ptrWritable`: what the checks on `pipefd_ptr` find -/
def Sys.pipe2 (pid flags : ℕ) (ptrValid ptrWritable : Bool) : Except Errno ℕ × Sys :=
  if ¬ ptrValid then (.error .EFAULT, st)
  else
    match st.pipes.allocPipe with
    | none => (.error .EMFILE, st)
    | some (id, pipes) =>
      let (rfd, st) := { st with pipes := pipes }.allocHandle pid (FileHandle.newPipeRead id) (hasCloexec flags)
      let (wfd, st) := st.allocHandle pid (FileHandle.newPipeWrite id) (hasCloexec flags)
      if rfd.isSome ∧ wfd.isSome then (if ptrWritable then .ok 0 else .error .EFAULT, st)
      else (.error .EMFILE, { st with pipes := (st.pipes.closeReadEnd id).closeWriteEnd id })

/-- `write` on a pipe descriptor -/
def Sys.write (pid fd : ℕ) (data : List UInt8) : Except Errno ℕ × Sys :=
  match st.handle pid fd with
  | none => (.error .EBADF, st)
  | some h =>
    match h.pipeId with
    | none => (.error .EBADF, st)
    | some id =>
      if h.pipeWrite then ((st.pipes.pipeWrite id data).1, { st with pipes := (st.pipes.pipeWrite id data).2 })
      else (.error .EBADF, st)

/-- one turn of a `read` on a pipe descriptor -/
def Sys.readTurn (pid fd n : ℕ) : Sys :=
  match st.handle pid fd with
  | none => st
  | some h =>
    match h.pipeId with
    | none => st
    | some id => if h.pipeWrite then st else { st with pipes := (st.pipes.pipeReadTurn id n).2 }

inductive Op where
  | spawn
  | openFile (pid : ℕ) (o : Opened) (flags : ℕ)
  | pipe2 (pid flags : ℕ) (ptrValid ptrWritable : Bool)
  | dup (pid fd : ℕ)
  | dup2 (pid oldFd newFd : ℕ)
  | fork (pid : ℕ) (ok : Bool)
  | close (pid fd : ℕ)
  | setFd (pid fd : ℕ) (cloexec : Bool)
  | closeCloexec (pid : ℕ)
  | removeProcess (pid : ℕ)
  | write (pid fd : ℕ) (data : List UInt8)
  | readTurn (pid fd n : ℕ)

def step : Op → Sys
  | .spawn => st.spawn
  | .openFile pid o flags => (st.openResolved pid o flags).2
  | .pipe2 pid flags ptrValid ptrWritable => (st.pipe2 pid flags ptrValid ptrWritable).2
  | .dup pid fd => (st.dup pid fd).2
  | .dup2 pid oldFd newFd => (st.dup2 pid oldFd newFd).2
  | .fork pid ok => (st.fork pid ok).2
  | .close pid fd => (st.close pid fd).2
  | .setFd pid fd cloexec => st.setFd pid fd cloexec
  | .closeCloexec pid => st.closeCloexec pid
  | .removeProcess pid => st.removeProcess pid
  | .write pid fd data => (st.write pid fd data).2
  | .readTurn pid fd n => st.readTurn pid fd n

/-! ## The handles of all live tables -/

/-- the weights of the handles in all live tables -/
def live (w : FileHandle → ℕ) (st : Sys) : ℕ :=
  SlotTable.tally 0 maxProcesses (fun p => p.fdTable.weight w) st.procs

variable {st st' : Sys} {pid s : ℕ} {p : Process}

theorem find_some (h : st.find pid = some (s, p)) : s < maxProcesses ∧ st.procs s = some p := by
  obtain ⟨i, hi, hfind⟩ := List.exists_of_findSome?_eq_some h
  cases hp : st.procs i with
  | none => simp [hp] at hfind
  | some q =>
    simp only [hp] at hfind
    split_ifs at hfind
    cases hfind
    exact ⟨List.mem_range.1 hi, hp⟩

theorem find_setTable (h : st.find pid = some (s, p)) (t : FdTable) :
    (st.setTable s p t).find pid = some (s, { p with fdTable := t }) := by
  obtain ⟨-, hp⟩ := find_some h
  obtain ⟨l₁, i, l₂, hl, hi, hbefore⟩ := List.findSome?_eq_some_iff.1 h
  have hpid : p.id = pid ∧ i = s := by
    cases hq : st.procs i with
    | none => simp [hq] at hi
    | some q =>
      simp only [hq] at hi
      split_ifs at hi with hid
      rw [Option.some.injEq, Prod.mk.injEq] at hi
      exact ⟨hi.2 ▸ hid, hi.1⟩
  obtain ⟨hid, rfl⟩ := hpid
  refine List.findSome?_eq_some_iff.2 ⟨l₁, i, l₂, hl, by simp [Sys.setTable, hid], fun j hj => ?_⟩
  have hji : j ≠ i := by
    rintro rfl
    have hnone := hbefore j hj
    simp [hp, hid] at hnone
  have hold := hbefore j hj
  simpa [Sys.setTable, update_of_ne hji] using hold

variable (w : FileHandle → ℕ)

/-- replacing the content of a slot trades the weights of the two tables -/
theorem live_update (st : Sys) (hs : s < maxProcesses) (q : Option Process) :
    live w { st with procs := update st.procs s q } + SlotTable.weigh (fun p => p.fdTable.weight w) (st.procs s) =
      live w st + SlotTable.weigh (fun p => p.fdTable.weight w) q :=
  SlotTable.tally_update _ (Nat.zero_le s) hs q

theorem live_setTable (h : st.find pid = some (s, p))
    (t : FdTable) : live w (st.setTable s p t) + p.fdTable.weight w = live w st + t.weight w := by
  obtain ⟨hs, hp⟩ := find_some h
  have hup := live_update w st hs (some { p with fdTable := t })
  rw [hp] at hup
  exact hup

theorem live_mono {w v : FileHandle → ℕ} (hwv : ∀ h, w h ≤ v h) (st : Sys) : live w st ≤ live v st :=
  SlotTable.tally_mono fun _ => SlotTable.tally_mono hwv

/-! ## Dropping and copying handles changes counters and requests only -/

structure SameTables (st st' : Sys) : Prop where
  procs : st'.procs = st.procs
  pipes : st'.pipes = st.pipes

theorem SameTables.refl (st : Sys) : SameTables st st := ⟨rfl, rfl⟩

theorem SameTables.trans {st'' : Sys} (h : SameTables st st') (h' : SameTables st' st'') : SameTables st st'' :=
  ⟨h'.procs.trans h.procs, h'.pipes.trans h.pipes⟩

theorem SameTables.live (h : SameTables st st') (w : FileHandle → ℕ) : live w st' = live w st := by
  rw [Files.live, Files.live, h.procs]

theorem SameTables.find (h : SameTables st st') (pid : ℕ) : st'.find pid = st.find pid := by
  unfold Sys.find
  rw [h.procs]

variable (st)

theorem dropHandle_tables (h : FileHandle) : SameTables st (st.dropHandle h) := by
  unfold Sys.dropHandle Sys.closeRemote
  split
  · split
    · dsimp only
      split_ifs <;> exact ⟨rfl, rfl⟩
    · exact ⟨rfl, rfl⟩
  · exact SameTables.refl st

theorem dropAll_tables (hs : List FileHandle) : SameTables st (st.dropAll hs) := by
  induction hs generalizing st with
  | nil => exact SameTables.refl st
  | cons h hs ih => exact (dropHandle_tables st h).trans (ih (st.dropHandle h))

theorem bump_tables (h : FileHandle) : SameTables st (st.bump h) := by
  unfold Sys.bump
  split <;> exact ⟨rfl, rfl⟩

theorem bumpAll_tables (hs : List FileHandle) : SameTables st (st.bumpAll hs) := by
  induction hs generalizing st with
  | nil => exact SameTables.refl st
  | cons h hs ih => exact (bump_tables st h).trans (ih (st.bump h))

theorem cloneTable_tables (pid : ℕ) : SameTables st (st.cloneTable pid).2 := by
  unfold Sys.cloneTable
  split
  · exact SameTables.refl st
  · exact bumpAll_tables st _

variable {st}

/-- a process moves into a free slot -/
theorem live_newProcess
    (hs : SlotTable.firstFree 0 maxProcesses st.procs = some s) (p : Process) :
    live w { st with procs := update st.procs s (some p) } = live w st + p.fdTable.weight w := by
  obtain ⟨-, hlt, hfree⟩ := SlotTable.firstFree_some hs
  have hup := live_update w st hlt (some p)
  rwa [hfree, SlotTable.weigh_none, SlotTable.weigh_some, Nat.add_zero] at hup

/-- a new handle is in a table, or nothing has changed in any of them -/
theorem live_allocHandle (st : Sys) (pid : ℕ) (h : FileHandle) (cloexec : Bool) :
    live w (st.allocHandle pid h cloexec).2 = live w st + if (st.allocHandle pid h cloexec).1.isSome then w h else 0 := by
  unfold Sys.allocHandle
  cases hf : st.find pid with
  | none => simpa using (dropHandle_tables st h).live w
  | some sp =>
    obtain ⟨s, p⟩ := sp
    cases ha : p.fdTable.alloc h cloexec with
    | none => simpa [ha] using (dropHandle_tables st h).live w
    | some ft =>
      obtain ⟨fd, t⟩ := ft
      have hset := live_setTable w hf t
      have hw := FdTable.weight_alloc w ha
      simp only [ha, Option.isSome_some, if_true]
      omega

theorem allocHandle_pipes (st : Sys) (pid : ℕ) (h : FileHandle) (cloexec : Bool) :
    (st.allocHandle pid h cloexec).2.pipes = st.pipes := by
  unfold Sys.allocHandle
  cases st.find pid with
  | none => exact (dropHandle_tables st h).pipes
  | some sp =>
    dsimp only
    cases sp.2.fdTable.alloc h cloexec with
    | none => exact (dropHandle_tables st h).pipes
    | some ft => rfl

end SwiftCore.Syscall.Files
