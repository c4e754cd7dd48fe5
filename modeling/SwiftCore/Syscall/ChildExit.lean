/-
The end of a process, as its parent learns of it: `exit` and `kill` on one side, `wait` on the other
(`core/task/scheduler.rs`, `core/task/process.rs`, `core/syscall/signal.rs`, `core/syscall/process.rs`).

A process ends when its last thread exits, or when it is killed; it then stays in the table as a zombie until its parent's
`wait` takes it out. A step is one system call, except that a blocked `wait` is one step for every turn of its loop. A
caller is a process with a live thread. What the environment decides is part of the step: whether a signal to oneself is
unblocked and terminates by default (`dies`), whether a `fork` gets its memory, and what the status pointer is worth.

`firstExit`, `parentOf` and `reports` are ghost: the code a process first ended with, its parent, and the successful waits
with the status written.

- `inv_step`: one step of the system.
- `reported_once`: as long as no zombie is killed and no status pointer turns out to be unwritable after the child was
  taken, every child that ended is returned once, to its own parent and with its first exit code, or is still there to be
  returned by the next `wait` for it; the count of the table is right; and `wait` fails only without taking a child.
- `zombie_killed_again`, the counterexample: a second kill replaces the exit code, and a read-only status page loses the
  child.
-/
import SwiftCore.Lib.Run
import SwiftCore.Task.ProcessTable
import SwiftCore.Task.Signal

namespace SwiftCore.Syscall.ChildExit

open SwiftCore.Task Run Function

/-- a successful `wait` -/
structure Report where
  parent : ℕ
  child : ℕ
  /-- what was written through the status pointer -/
  status : Option UInt64

structure World where
  table : ProcessTable
  nextPid : ℕ
  /-- live threads of each process; no call adds one to a process that has one -/
  threads : ℕ → ℕ
  /-- the processes with privilege `Core` -/
  core : ℕ → Bool
  firstExit : ℕ → Option UInt64
  parentOf : ℕ → Option ℕ
  reports : List Report

def boot : World := ⟨ProcessTable.new, 1, fun _ => 0, fun _ => false, fun _ => none, fun _ => none, []⟩

/-! ## Exits and signals -/

variable (w : World)

/-- `mark_process_exited`, with the first exit code noted -/
def World.markExited (pid : ℕ) (code : UInt64) : World :=
  { w with
    table := w.table.markProcessExited pid code
    firstExit :=
      if (w.table.get pid).isSome ∧ (w.firstExit pid).isNone then update w.firstExit pid (some code)
      else w.firstExit }

/-- `exit_current_task` in a thread of `caller` -/
def World.exitCurrentTask (caller : ℕ) (code : UInt64) : World :=
  let w := { w with threads := update w.threads caller (w.threads caller - 1) }
  if w.threads caller = 0 then w.markExited caller code else w

/-- `kill_process_immediately` -/
def World.killProcessImmediately (caller pid : ℕ) (code : UInt64) : World :=
  if caller = pid then w.exitCurrentTask caller code
  else { w with threads := update w.threads pid 0 }.markExited pid code

/-- `deliver_signal_to_pid`; a signal that only becomes pending changes nothing here -/
def World.deliverSignalToPid (caller pid sig : ℕ) (dies : Bool) : World :=
  if sig < 1 ∨ 64 < sig then w
  else if (w.table.get pid).isNone then w
  else if sig = sigkill then w.killProcessImmediately caller pid sig.toUInt64
  else if caller = pid ∧ dies then w.exitCurrentTask caller sig.toUInt64
  else w

/-- `caller_can_signal_target` -/
def World.callerCanSignalTarget (caller target : ℕ) : Bool := caller = target || w.core caller

/-- the ids `for_each_process` visits -/
def World.pids : List ℕ :=
  (List.range' 0 (ProcessTable.maxProcesses - 0)).filterMap fun s => (w.table.processes s).map Process.id

def World.kill (caller : ℕ) (pid : ℤ) (sig : ℕ) (dies : Bool) : World :=
  if 64 < sig ∨ sig = 0 then w
  else if 0 < pid then
    if (w.table.get pid.toNat).isNone ∨ ¬ w.callerCanSignalTarget caller pid.toNat then w
    else w.deliverSignalToPid caller pid.toNat sig dies
  else if pid = -1 then
    if ¬ w.core caller then w
    else (w.pids.filter (· ≠ caller)).foldl (fun w pid => w.deliverSignalToPid caller pid sig dies) w
  else w

/-! ## New processes -/

/-- a process is made and added; `ok`: it gets its stack and thread, otherwise it is removed again -/
def World.create (parent : Option ℕ) (core ok : Bool) : World :=
  let child := w.nextPid
  let w := { w with nextPid := child + 1 }
  match w.table.add (Process.new child parent) with
  | none => w
  | some table =>
    if ok then
      { w with
        table := table
        threads := update w.threads child 1
        core := update w.core child core
        parentOf := update w.parentOf child parent }
    -- `remove` would stop the kernel where the count is 0: `Valid.remove_add`
    else { w with table := (table.remove child).getD table }

/-- `fork`; `early`: it ends before a process is made -/
def World.fork (caller : ℕ) (early ok : Bool) : World :=
  if early then w else w.create (some caller) (w.core caller) ok

/-! ## Waiting -/

inductive WaitError where
  | EINVAL
  | EFAULT
  | ECHILD
  deriving DecidableEq, Repr

inductive WaitResult where
  | reaped (child : ℕ)
  | error (e : WaitError)
  /-- `WNOHANG`, and no child has ended -/
  | zero
  /-- the call yields and looks again -/
  | again
  deriving DecidableEq, Repr

/-- the status pointer: `validate_user_ptr` asks for mapped pages, the copy for writable ones -/
inductive StatusPtr where
  | null
  | invalid
  | readOnly
  | writable
  deriving DecidableEq, Repr

def wnohang : UInt64 := 1

/-- the checks on the arguments -/
def waitCheck (pid : ℤ) (options : UInt64) (ptr : StatusPtr) : Option WaitError :=
  if options &&& ~~~wnohang ≠ 0 then some .EINVAL
  else if pid < -1 ∨ pid = 0 then some .EINVAL
  else if ptr = .invalid then some .EFAULT
  else none

def waitTarget (pid : ℤ) : Option ℕ := if pid = -1 then none else some pid.toNat

/-- `((exit_code & 0xff) << 8) as i32` -/
def statusOf (exitCode : UInt64) : UInt64 := (exitCode &&& 0xff) <<< 8

/-- `wait`: the checks and one turn of the loop -/
def World.wait (caller : ℕ) (pid : ℤ) (options : UInt64) (ptr : StatusPtr) : WaitResult × World :=
  match waitCheck pid options ptr with
  | some e => (.error e, w)
  | none =>
    match w.table.reapZombieChild caller (waitTarget pid) with
    | (some (child, exitCode), table) =>
      let w := { w with table := table }
      match ptr with
      | .null => (.reaped child, { w with reports := w.reports ++ [⟨caller, child, none⟩] })
      | .writable => (.reaped child, { w with reports := w.reports ++ [⟨caller, child, some (statusOf exitCode)⟩] })
      | _ => (.error .EFAULT, w)
    | (none, _) =>
      if ¬ w.table.hasChild caller (waitTarget pid) then (.error .ECHILD, w)
      else if options &&& wnohang ≠ 0 then (.zero, w)
      else (.again, w)

/-! ## Runs -/

inductive Op where
  /-- a process started by the kernel or by `exec` -/
  | spawn (parent : Option ℕ) (core ok : Bool)
  | fork (caller : ℕ) (early ok : Bool)
  | exit (caller : ℕ) (code : UInt64)
  | kill (caller : ℕ) (pid : ℤ) (sig : ℕ) (dies : Bool)
  | wait (caller : ℕ) (pid : ℤ) (options : UInt64) (ptr : StatusPtr)

/-- the process that makes the call -/
def Op.caller : Op → Option ℕ
  | .spawn _ _ _ => none
  | .fork caller _ _ | .exit caller _ | .kill caller _ _ _ | .wait caller _ _ _ => some caller

def World.perform : Op → World
  | .spawn parent core ok => w.create parent core ok
  | .fork caller early ok => w.fork caller early ok
  | .exit caller code => w.exitCurrentTask caller code
  | .kill caller pid sig dies => w.kill caller pid sig dies
  | .wait caller pid options ptr => (w.wait caller pid options ptr).2

/-- only a process with a live thread makes calls -/
def step (op : Op) : World :=
  match op.caller with
  | some caller => if w.threads caller = 0 then w else w.perform op
  | none => w.perform op

/-- some process of the table is a zombie and a target of `kill(pid)` -/
def World.killsZombie (pid : ℤ) : Bool :=
  (w.table.slot fun p => (pid = p.id ∨ pid = -1) ∧ p.state = .zombie).isSome

/-- the steps after which all is well: a privileged SIGKILL does not hit a zombie; a `wait` whose status pointer is mapped
but not writable finds no zombie; a `wait` with arguments that are refused has a child to wait for -/
def Meets : Op → Prop
  | .kill caller pid sig _ => sig = sigkill → w.core caller = true → w.killsZombie pid = false
  | .wait caller pid options ptr =>
    (ptr = .readOnly → w.table.zombieSlot caller (waitTarget pid) = none) ∧
      (w.table.hasChild caller (waitTarget pid) = false → waitCheck pid options ptr = none)
  | _ => True

instance : ∀ op, Decidable (Meets w op)
  | .spawn _ _ _ | .fork _ _ _ | .exit _ _ => isTrue trivial
  | .kill caller pid sig _ =>
    inferInstanceAs (Decidable (sig = sigkill → w.core caller = true → w.killsZombie pid = false))
  | .wait caller pid options ptr =>
    inferInstanceAs (Decidable ((ptr = .readOnly → w.table.zombieSlot caller (waitTarget pid) = none) ∧
      (w.table.hasChild caller (waitTarget pid) = false → waitCheck pid options ptr = none)))

/-! ## What holds in every state -/

/-- a process that has ended is a zombie with the code it ended with, and only then -/
def ExitedAs (p : Process) : Option UInt64 → Prop
  | none => p.state ≠ .zombie
  | some c => p.state = .zombie ∧ p.exitCode = some c

structure Inv : Prop where
  valid : w.table.Valid
  known : ∀ s p, w.table.processes s = some p → p.id < w.nextPid ∧ w.parentOf p.id = p.parentId
  exited : ∀ s p, w.table.processes s = some p → ExitedAs p (w.firstExit p.id)
  live : ∀ pid, w.threads pid ≠ 0 → ∃ s p, w.table.processes s = some p ∧ p.id = pid ∧ p.state ≠ .zombie
  kept : ∀ pid c, w.firstExit pid = some c →
    pid ∈ w.reports.map Report.child ∨ ∃ s p, w.table.processes s = some p ∧ p.id = pid
  told : ∀ r ∈ w.reports, w.parentOf r.child = some r.parent ∧
    ∃ c, w.firstExit r.child = some c ∧ ∀ st, r.status = some st → st = statusOf c
  gone : ∀ r ∈ w.reports, ∀ s p, w.table.processes s = some p → p.id ≠ r.child
  once : (w.reports.map Report.child).Nodup
  fresh : ∀ pid, w.nextPid ≤ pid → w.firstExit pid = none

theorem inv_boot : Inv boot where
  valid := ProcessTable.valid_new
  known := by simp [boot, ProcessTable.new]
  exited := by simp [boot, ProcessTable.new]
  live := by simp [boot]
  kept := by simp [boot]
  told := by simp [boot]
  gone := by simp [boot]
  once := by simp [boot]
  fresh := by simp [boot]

variable {w : World} {caller pid : ℕ}

/-- changing the number of threads of a process that has one left, or none at all -/
theorem Inv.setThreads (h : Inv w) (pid n : ℕ) (hn : n = 0 ∨ w.threads pid ≠ 0) :
    Inv { w with threads := update w.threads pid n } := by
  refine { h with live := fun pid' hpid' => ?_ }
  simp only [update_apply] at hpid'
  split_ifs at hpid' with hsame
  · exact hsame ▸ h.live pid (hn.resolve_left hpid')
  · exact h.live pid' hpid'

variable {s : ℕ} {p : Process} {target : ℤ} {options : UInt64} {ptr : StatusPtr}

variable (h : Inv w)

include h

/-- a zombie has no threads -/
theorem Inv.threads_zombie (hp : w.table.processes s = some p) (hzombie : p.state = .zombie) : w.threads p.id = 0 := by
  by_contra hne
  obtain ⟨s', p', hp', hid, hlive⟩ := h.live p.id hne
  obtain rfl := h.valid.distinct s' s p' p hp' hp hid
  cases hp.symm.trans hp'
  exact hlive hzombie

theorem Inv.firstExit_of_alive (hp : w.table.processes s = some p)
    (halive : p.state ≠ .zombie) : w.firstExit p.id = none := by
  have hexited := h.exited s p hp
  cases hfirst : w.firstExit p.id with
  | none => rfl
  | some c =>
    rw [hfirst] at hexited
    exact absurd hexited.1 halive

/-- a process without threads that is not a zombie ends -/
theorem Inv.markExited (code : UInt64) (hthreads : w.threads pid = 0)
    (halive : ∀ s p, w.table.processes s = some p → p.id = pid → p.state ≠ .zombie) : Inv (w.markExited pid code) := by
  cases hget : w.table.get pid with
  | none =>
    have hsame : w.markExited pid code = w := by
      have hslot : (w.table.slot fun p => p.id = pid) = none := by
        by_contra hne
        obtain ⟨s, hslot⟩ := Option.ne_none_iff_exists'.1 hne
        obtain ⟨-, p, hp, -⟩ := ProcessTable.slot_some hslot
        simp [ProcessTable.get, hslot, hp] at hget
      simp [World.markExited, ProcessTable.markProcessExited, ProcessTable.getMut, hslot, hget]
    rwa [hsame]
  | some p₀ =>
    obtain ⟨s₀, hp₀, rfl⟩ := ProcessTable.get_some hget
    have hfirst := h.firstExit_of_alive hp₀ (halive s₀ p₀ hp₀ rfl)
    have hw : w.markExited p₀.id code =
        { w with
          table := w.table.markProcessExited p₀.id code
          firstExit := update w.firstExit p₀.id (some code) } := by
      simp [World.markExited, hget, hfirst]
    -- the slots of the new table, each with the process it held before
    have hback : ∀ s q, (w.table.markProcessExited p₀.id code).processes s = some q →
        ∃ p, w.table.processes s = some p ∧ q.id = p.id ∧ q.parentId = p.parentId ∧
          ExitedAs q (update w.firstExit p₀.id (some code) q.id) := by
      intro s q hq
      obtain ⟨p, hp, rfl⟩ := h.valid.mem_mark.1 hq
      by_cases hid : p.id = p₀.id
      · refine ⟨p, hp, by simp [hid, Process.markExited], by simp [hid, Process.markExited], ?_⟩
        simp [hid, Process.markExited, ExitedAs]
      · refine ⟨p, hp, by simp [hid], by simp [hid], ?_⟩
        rw [if_neg hid, update_of_ne hid]
        exact h.exited s p hp
    have hforth : ∀ s p, w.table.processes s = some p →
        ∃ q, (w.table.markProcessExited p₀.id code).processes s = some q ∧ q.id = p.id := by
      intro s p hp
      refine ⟨_, h.valid.mem_mark.2 ⟨p, hp, rfl⟩, ?_⟩
      split_ifs <;> rfl
    rw [hw]
    refine ⟨h.valid.mark _ _, fun s q hq => ?_, fun s q hq => ?_, fun pid hpid => ?_, fun pid c hc => ?_, fun r hr => ?_,
      fun r hr s q hq => ?_, h.once, fun pid hpid => ?_⟩
    · obtain ⟨p, hp, hid, hparent, -⟩ := hback s q hq
      rw [hid, hparent]
      exact h.known s p hp
    · exact (hback s q hq).choose_spec.2.2.2
    · obtain ⟨s, p, hp, rfl, hlive⟩ := h.live pid hpid
      have hid : p.id ≠ p₀.id := fun hid => hpid (hid ▸ hthreads)
      exact ⟨s, p, h.valid.mem_mark.2 ⟨p, hp, by rw [if_neg hid]⟩, rfl, hlive⟩
    · simp only at hc
      by_cases hid : pid = p₀.id
      · subst hid
        obtain ⟨q, hq, hqid⟩ := hforth s₀ p₀ hp₀
        exact .inr ⟨s₀, q, hq, hqid⟩
      · rw [update_of_ne hid] at hc
        refine (h.kept pid c hc).imp_right ?_
        rintro ⟨s, p, hp, rfl⟩
        obtain ⟨q, hq, hqid⟩ := hforth s p hp
        exact ⟨s, q, hq, hqid⟩
    · obtain ⟨hparent, c, hc, hstatus⟩ := h.told r hr
      have hid : r.child ≠ p₀.id := (h.gone r hr s₀ p₀ hp₀).symm
      exact ⟨hparent, c, by simpa [update_of_ne hid] using hc, hstatus⟩
    · obtain ⟨p, hp, hid, -⟩ := hback s q hq
      rw [hid]
      exact h.gone r hr s p hp
    · have hid : pid ≠ p₀.id := by
        have hknown := (h.known s₀ p₀ hp₀).1
        simp only at hpid
        omega
      simpa [update_of_ne hid] using h.fresh pid hpid

/-- the last thread of a process takes the process with it -/
theorem Inv.exitCurrentTask (code : UInt64) (hcaller : w.threads caller ≠ 0) : Inv (w.exitCurrentTask caller code) := by
  have hthreads := h.setThreads caller (w.threads caller - 1) (.inr hcaller)
  unfold World.exitCurrentTask
  simp only
  split_ifs with hlast
  · refine hthreads.markExited code hlast fun s p hp hid hzombie => hcaller ?_
    rw [← hid]
    exact h.threads_zombie hp hzombie
  · exact hthreads

theorem Inv.killProcessImmediately (code : UInt64) (hcaller : w.threads caller ≠ 0)
    (halive : ∀ s p, w.table.processes s = some p → p.id = pid → p.state ≠ .zombie) :
    Inv (w.killProcessImmediately caller pid code) := by
  unfold World.killProcessImmediately
  split_ifs
  · exact h.exitCurrentTask code hcaller
  · exact (h.setThreads pid 0 (.inl rfl)).markExited code (by simp) halive

theorem Inv.deliverSignalToPid (sig : ℕ) (dies : Bool) (hcaller : w.threads caller ≠ 0)
    (halive : sig = sigkill → ∀ s p, w.table.processes s = some p → p.id = pid → p.state ≠ .zombie) :
    Inv (w.deliverSignalToPid caller pid sig dies) := by
  unfold World.deliverSignalToPid
  split_ifs with hrange hget hkill hself
  · exact h
  · exact h
  · exact h.killProcessImmediately _ hcaller (halive hkill)
  · exact h.exitCurrentTask _ hcaller
  · exact h

/-- a signal to another process changes neither the caller nor the processes in between -/
theorem Inv.deliver_other (sig : ℕ) (dies : Bool) (hne : caller ≠ pid) :
    (w.deliverSignalToPid caller pid sig dies).threads caller = w.threads caller ∧
      ∀ s q, (w.deliverSignalToPid caller pid sig dies).table.processes s = some q → q.id ≠ pid →
        w.table.processes s = some q := by
  unfold World.deliverSignalToPid
  split_ifs with hrange hget hkill hself
  · exact ⟨rfl, fun s q hq _ => hq⟩
  · exact ⟨rfl, fun s q hq _ => hq⟩
  · rw [World.killProcessImmediately, if_neg hne]
    refine ⟨update_of_ne hne 0 w.threads, fun s q hq hid => ?_⟩
    obtain ⟨p, hp, rfl⟩ := h.valid.mem_mark.1 hq
    by_cases hp' : p.id = pid
    · exact absurd (by simp [hp', Process.markExited]) hid
    · rwa [if_neg hp']
  · exact absurd hself.1 hne
  · exact ⟨rfl, fun s q hq _ => hq⟩

/-- the loop of `kill(-1)`: induction on the targets; each of them is still alive when its turn comes -/
theorem Inv.broadcast (sig : ℕ) (dies : Bool) (pids : List ℕ) (hcaller : w.threads caller ≠ 0)
    (hnot : caller ∉ pids) (hnodup : pids.Nodup)
    (halive : sig = sigkill → ∀ pid ∈ pids, ∀ s p, w.table.processes s = some p → p.id = pid → p.state ≠ .zombie) :
    Inv (pids.foldl (fun w pid => w.deliverSignalToPid caller pid sig dies) w) := by
  induction pids generalizing w with
  | nil => exact h
  | cons pid pids ih =>
    obtain ⟨hhead, htail⟩ := List.nodup_cons.1 hnodup
    obtain ⟨hne, hnot⟩ := not_or.1 (List.mem_cons.not.1 hnot)
    obtain ⟨hthreads, hothers⟩ := h.deliver_other sig dies hne
    refine ih (h.deliverSignalToPid sig dies hcaller fun hkill => halive hkill pid List.mem_cons_self) ?_ hnot htail ?_
    · rwa [hthreads]
    · intro hkill pid' hpid' s p hp hid
      have hpid : p.id ≠ pid := by
        rintro rfl
        exact hhead (hid ▸ hpid')
      exact halive hkill pid' (List.mem_cons_of_mem _ hpid') s p (hothers s p hp hpid) hid

theorem Inv.nodup_pids : w.pids.Nodup := by
  have hmap : w.pids = ((List.range' 0 (ProcessTable.maxProcesses - 0)).filterMap w.table.processes).map Process.id := by
    rw [List.map_filterMap]
    rfl
  rw [hmap]
  exact SlotTable.nodup_map_filterMap List.nodup_range' fun s _ s' _ p p' hp hp' hid =>
    h.valid.distinct s s' p p' hp hp' hid

theorem Inv.kill (target : ℤ) (sig : ℕ) (dies : Bool) (hcaller : w.threads caller ≠ 0)
    (hmeets : Meets w (.kill caller target sig dies)) : Inv (w.kill caller target sig dies) := by
  have hspared : sig = sigkill → w.core caller = true → ∀ s p, w.table.processes s = some p →
      (target = p.id ∨ target = -1) → p.state ≠ .zombie := by
    intro hkill hcore s p hp htarget hzombie
    have hnone : (w.table.slot fun p => (target = p.id ∨ target = -1) ∧ p.state = .zombie) = none := by
      simpa [World.killsZombie] using hmeets hkill hcore
    have hno := SlotTable.firstSlot_eq_none.1 hnone s p (Nat.zero_le s) (h.valid.bounded s p hp) hp
    simp [htarget, hzombie] at hno
  unfold World.kill
  split_ifs with hsig hpos hrefused hall hcore
  · exact h
  · exact h
  · refine h.deliverSignalToPid sig dies hcaller fun hkill s p hp hid hzombie => ?_
    have hallowed : w.callerCanSignalTarget caller target.toNat = true := by
      by_contra hno
      exact hrefused (.inr hno)
    rcases Bool.or_eq_true_iff.1 hallowed with hself | hcore
    · have hcaller' : caller = target.toNat := by simpa using hself
      exact hcaller (hcaller' ▸ hid ▸ h.threads_zombie hp hzombie)
    · exact hspared hkill hcore s p hp (.inl (by omega)) hzombie
  · refine h.broadcast sig dies _ hcaller (by simp) (h.nodup_pids.filter _) fun hkill pid _ s p hp _ => ?_
    exact hspared hkill hcore s p hp (.inr hall)
  · exact h
  · exact h

/-- a new process, or the table as it was -/
theorem Inv.create (parent : Option ℕ) (core ok : Bool) : Inv (w.create parent core ok) := by
  have hnew : ∀ s q, w.table.processes s = some q → q.id ≠ (Process.new w.nextPid parent).id := by
    intro s q hq
    exact (h.known s q hq).1.ne
  have hnext : Inv { w with nextPid := w.nextPid + 1 } := by
    refine { h with known := fun s p hp => ?_, fresh := fun pid hpid => h.fresh pid (Nat.le_of_succ_le hpid) }
    obtain ⟨hlt, hparent⟩ := h.known s p hp
    exact ⟨Nat.lt_succ_of_lt hlt, hparent⟩
  unfold World.create
  simp only
  cases hadd : w.table.add (Process.new w.nextPid parent) with
  | none => exact hnext
  | some table =>
    simp only
    split_ifs
    · obtain ⟨hvalid, s₀, hfree, rfl⟩ := h.valid.mem_add hadd hnew
      have hread : ∀ s q, update w.table.processes s₀ (some (Process.new w.nextPid parent)) s = some q →
          q = Process.new w.nextPid parent ∨ w.table.processes s = some q := by
        intro s q hq
        rw [update_apply] at hq
        split_ifs at hq
        · exact .inl (Option.some.inj hq).symm
        · exact .inr hq
      have hstays : ∀ s p, w.table.processes s = some p →
          update w.table.processes s₀ (some (Process.new w.nextPid parent)) s = some p := by
        intro s p hp
        rwa [update_of_ne]
        rintro rfl
        simp [hfree] at hp
      have hchild : w.firstExit w.nextPid = none := h.fresh _ le_rfl
      have hreported : ∀ r ∈ w.reports, r.child ≠ w.nextPid := by
        intro r hr hid
        obtain ⟨-, c, hc, -⟩ := h.told r hr
        rw [hid, hchild] at hc
        cases hc
      refine ⟨hvalid, fun s q hq => ?_, fun s q hq => ?_, fun pid hpid => ?_, fun pid c hc => ?_, fun r hr => ?_,
        fun r hr s q hq => ?_, h.once, hnext.fresh⟩
      · rcases hread s q hq with rfl | hq
        · exact ⟨Nat.lt_succ_self _, by simp [Process.new]⟩
        · obtain ⟨hlt, hparent⟩ := h.known s q hq
          exact ⟨Nat.lt_succ_of_lt hlt, (update_of_ne hlt.ne _ _).trans hparent⟩
      · rcases hread s q hq with rfl | hq
        · simp [Process.new, hchild, ExitedAs]
        · exact h.exited s q hq
      · simp only at hpid
        by_cases hid : pid = w.nextPid
        · exact ⟨s₀, Process.new w.nextPid parent, by simp, hid.symm, by simp [Process.new]⟩
        · rw [update_of_ne hid] at hpid
          obtain ⟨s, p, hp, hid, hlive⟩ := h.live pid hpid
          exact ⟨s, p, hstays s p hp, hid, hlive⟩
      · refine (h.kept pid c hc).imp_right ?_
        rintro ⟨s, p, hp, hid⟩
        exact ⟨s, p, hstays s p hp, hid⟩
      · obtain ⟨hparent, hcode⟩ := h.told r hr
        exact ⟨(update_of_ne (hreported r hr) _ _).trans hparent, hcode⟩
      · rcases hread s q hq with rfl | hq
        · exact (hreported r hr).symm
        · exact h.gone r hr s q hq
    · have hback : table.remove w.nextPid = some w.table := h.valid.remove_add hadd hnew
      rw [hback, Option.getD_some]
      exact hnext

/-- a reported zombie leaves the table -/
theorem Inv.reap {target : Option ℕ} (hslot : w.table.zombieSlot caller target = some s)
    (hp : w.table.processes s = some p) (st : Option UInt64)
    (hst : ∀ x, st = some x → x = statusOf (p.exitCode.getD 0)) :
    Inv { w with table := (w.table.reapZombieChild caller target).2, reports := w.reports ++ [⟨caller, p.id, st⟩] } := by
  obtain ⟨p', hp', hmatch, hzombie⟩ := ProcessTable.zombieSlot_some hslot
  cases hp.symm.trans hp'
  have hmem : ∀ {s' : ℕ} {q : Process}, (w.table.reapZombieChild caller target).2.processes s' = some q ↔
      s' ≠ s ∧ w.table.processes s' = some q := ProcessTable.mem_reap hslot
  -- the code it ended with is its first one
  obtain ⟨c, hc, hcode⟩ : ∃ c, w.firstExit p.id = some c ∧ p.exitCode = some c := by
    have hexited := h.exited s p hp
    generalize w.firstExit p.id = r at hexited ⊢
    cases r with
    | none => exact absurd hzombie hexited
    | some c => exact ⟨c, rfl, hexited.2⟩
  have hother : ∀ s' q, s' ≠ s → w.table.processes s' = some q → q.id ≠ p.id := fun s' q hs hq hid =>
    hs (h.valid.distinct s' s q p hq hp hid)
  refine ⟨h.valid.reap caller target, fun s' q hq => h.known s' q (hmem.1 hq).2, fun s' q hq => h.exited s' q (hmem.1 hq).2,
    fun pid hpid => ?_, fun pid c' hc' => ?_, fun r hr => ?_, fun r hr s' q hq => ?_, ?_, h.fresh⟩
  · obtain ⟨s', q, hq, hid, hlive⟩ := h.live pid hpid
    refine ⟨s', q, hmem.2 ⟨?_, hq⟩, hid, hlive⟩
    rintro rfl
    cases hp.symm.trans hq
    exact hlive hzombie
  · rw [List.map_append, List.mem_append]
    by_cases hid : pid = p.id
    · exact .inl (.inr (by simp [hid]))
    · rcases h.kept pid c' hc' with hreported | ⟨s', q, hq, hqid⟩
      · exact .inl (.inl hreported)
      · refine .inr ⟨s', q, hmem.2 ⟨?_, hq⟩, hqid⟩
        rintro rfl
        cases hp.symm.trans hq
        exact hid hqid.symm
  · rw [List.mem_append, List.mem_singleton] at hr
    rcases hr with hr | rfl
    · exact h.told r hr
    · refine ⟨?_, c, hc, fun x hx => ?_⟩
      · rw [(h.known s p hp).2]
        exact ProcessTable.isChildMatch_parent hmatch
      · have hx' := hst x hx
        rwa [hcode, Option.getD_some] at hx'
  · obtain ⟨hs, hq⟩ := hmem.1 hq
    rw [List.mem_append, List.mem_singleton] at hr
    rcases hr with hr | rfl
    · exact h.gone r hr s' q hq
    · exact hother s' q hs hq
  · rw [List.map_append]
    refine List.nodup_append.2 ⟨h.once, by simp, ?_⟩
    intro child hchild child' hchild'
    obtain ⟨r, hr, rfl⟩ := List.mem_map.1 hchild
    obtain rfl : child' = p.id := by simpa using hchild'
    exact (h.gone r hr s p hp).symm

omit h

/-- what `wait` finds: refused arguments, a zombie, or none -/
theorem wait_of_check {e : WaitError}
    (hcheck : waitCheck target options ptr = some e) : w.wait caller target options ptr = (.error e, w) := by
  rw [World.wait, hcheck]

theorem wait_of_none (hcheck : waitCheck target options ptr = none)
    (hslot : w.table.zombieSlot caller (waitTarget target) = none) :
    w.wait caller target options ptr =
      (if ¬ w.table.hasChild caller (waitTarget target) then .error .ECHILD
        else if options &&& wnohang ≠ 0 then .zero else .again, w) := by
  rw [World.wait, hcheck]
  simp only [ProcessTable.reapZombieChild, hslot]
  split_ifs <;> rfl

theorem wait_of_zombie (hcheck : waitCheck target options ptr = none)
    (hslot : w.table.zombieSlot caller (waitTarget target) = some s)
    (hp : w.table.processes s = some p) (hptr : ptr ≠ .readOnly) :
    ∃ st, (∀ x, st = some x → x = statusOf (p.exitCode.getD 0)) ∧ (ptr = .writable → st ≠ none) ∧
      w.wait caller target options ptr =
        (.reaped p.id,
          { w with
            table := (w.table.reapZombieChild caller (waitTarget target)).2
            reports := w.reports ++ [⟨caller, p.id, st⟩] }) := by
  have hreap : w.table.reapZombieChild caller (waitTarget target) =
      (some (p.id, p.exitCode.getD 0), (w.table.reapZombieChild caller (waitTarget target)).2) := by
    simp [ProcessTable.reapZombieChild, hslot, hp]
  rw [World.wait, hcheck, hreap]
  cases ptr with
  | null => exact ⟨none, by simp, by simp, rfl⟩
  | writable => exact ⟨some (statusOf (p.exitCode.getD 0)), by simp, by simp, rfl⟩
  | readOnly => exact absurd rfl hptr
  | invalid =>
    unfold waitCheck at hcheck
    split_ifs at hcheck
    exact absurd rfl ‹¬ StatusPtr.invalid = StatusPtr.invalid›

/-- the condition keeps read-only pointers from zombies -/
theorem Meets.ptr_ne (hmeets : Meets w (.wait caller target options ptr))
    (hslot : w.table.zombieSlot caller (waitTarget target) = some s) : ptr ≠ .readOnly := by
  rintro rfl
  cases hslot.symm.trans (hmeets.1 rfl)

theorem Inv.wait (h : Inv w) (target : ℤ) (options : UInt64) (ptr : StatusPtr)
    (hmeets : Meets w (.wait caller target options ptr)) : Inv (w.wait caller target options ptr).2 := by
  cases hcheck : waitCheck target options ptr with
  | some e => rwa [wait_of_check hcheck]
  | none =>
    cases hslot : w.table.zombieSlot caller (waitTarget target) with
    | none => rwa [wait_of_none hcheck hslot]
    | some s =>
      obtain ⟨p, hp, -⟩ := ProcessTable.zombieSlot_some hslot
      obtain ⟨st, hst, -, hwait⟩ := wait_of_zombie hcheck hslot hp (hmeets.ptr_ne hslot)
      rw [hwait]
      exact h.reap hslot hp st hst

variable (w)

theorem inv_step (op : Op) (h : Inv w) (hmeets : Meets w op) : Inv (step w op) := by
  cases op with
  | spawn parent core ok => exact h.create parent core ok
  | fork caller early ok =>
    simp only [step, Op.caller, World.perform, World.fork]
    split_ifs
    · exact h
    · exact h
    · exact h.create _ _ _
  | exit caller code =>
    simp only [step, Op.caller, World.perform]
    split_ifs with hcaller
    · exact h
    · exact h.exitCurrentTask code hcaller
  | kill caller target sig dies =>
    simp only [step, Op.caller, World.perform]
    split_ifs with hcaller
    · exact h
    · exact h.kill target sig dies hcaller hmeets
  | wait caller target options ptr =>
    simp only [step, Op.caller, World.perform]
    split_ifs with hcaller
    · exact h
    · exact h.wait target options ptr hmeets

/-! ## Reported once, and truthfully -/

/-- a process of the table is a child of the caller that the argument of `wait` names -/
def World.IsChild (caller : ℕ) (pid : ℤ) (p : Process) : Prop :=
  (∃ s, w.table.processes s = some p) ∧ p.parentId = some caller ∧ (pid = -1 ∨ p.id = pid.toNat)

structure Truthful : Prop where
  /-- no child is returned twice -/
  once : (w.reports.map Report.child).Nodup
  /-- it is returned to its parent, with the code it first ended with -/
  told : ∀ r ∈ w.reports, w.parentOf r.child = some r.parent ∧
    ∃ c, w.firstExit r.child = some c ∧ ∀ st, r.status = some st → st = statusOf c
  /-- a child that ended was returned, or is there to be returned -/
  kept : ∀ pid c, w.firstExit pid = some c → pid ∈ w.reports.map Report.child ∨
    ∃ s p, w.table.processes s = some p ∧ p.id = pid ∧ p.parentId = w.parentOf pid ∧ p.state = .zombie ∧
      p.exitCode = some c
  counted : w.table.count = w.table.occupied

/-- a `wait` that fails takes no child, and fails with `ECHILD` iff there is none to wait for; if its arguments pass and a
child has ended, it returns one that has, once, with its status -/
structure FairWait (caller : ℕ) (pid : ℤ) (options : UInt64) (ptr : StatusPtr) : Prop where
  kept : ∀ e, (w.wait caller pid options ptr).1 = .error e → (w.wait caller pid options ptr).2 = w
  echild : (w.wait caller pid options ptr).1 = .error .ECHILD ↔ ¬ ∃ p, w.IsChild caller pid p
  returned : waitCheck pid options ptr = none → (∃ p, w.IsChild caller pid p ∧ p.state = .zombie) →
    ∃ p st, (w.IsChild caller pid p ∧ p.state = .zombie) ∧ (ptr = .writable → st ≠ none) ∧
      (w.wait caller pid options ptr).1 = .reaped p.id ∧
      (w.wait caller pid options ptr).2.reports = w.reports ++ [⟨caller, p.id, st⟩]

def Fair : Op → Prop
  | .wait caller pid options ptr => FairWait w caller pid options ptr
  | _ => True

variable {w}

theorem Inv.truthful (h : Inv w) : Truthful w := by
  refine ⟨h.once, h.told, fun pid c hc => (h.kept pid c hc).imp_right ?_, h.valid.counted⟩
  rintro ⟨s, p, hp, rfl⟩
  have hexited := h.exited s p hp
  rw [hc] at hexited
  exact ⟨s, p, hp, rfl, (h.known s p hp).2.symm, hexited.1, hexited.2⟩

theorem Inv.hasChild_of (h : Inv w) {target : Option ℕ} (hp : w.table.processes s = some p)
    (hmatch : ProcessTable.isChildMatch p caller target = true) : w.table.hasChild caller target = true := by
  unfold ProcessTable.hasChild
  cases hslot : w.table.slot fun p => ProcessTable.isChildMatch p caller target with
  | some s' => rfl
  | none =>
    cases hmatch.symm.trans (SlotTable.firstSlot_eq_none.1 hslot s p (Nat.zero_le s) (h.valid.bounded s p hp) hp)

theorem isChildMatch_iff : ProcessTable.isChildMatch p caller (waitTarget target) = true ↔
    p.parentId = some caller ∧ (target = -1 ∨ p.id = target.toNat) := by
  unfold ProcessTable.isChildMatch waitTarget
  by_cases hparent : p.parentId = some caller <;> by_cases hany : target = -1 <;> simp [hparent, hany]

theorem Inv.hasChild_iff (h : Inv w) (caller : ℕ) (target : ℤ) :
    w.table.hasChild caller (waitTarget target) = true ↔ ∃ p, w.IsChild caller target p := by
  constructor
  · intro hchild
    obtain ⟨s, hslot⟩ := Option.isSome_iff_exists.1 hchild
    obtain ⟨-, p, hp, hmatches⟩ := ProcessTable.slot_some hslot
    exact ⟨p, ⟨s, hp⟩, isChildMatch_iff.1 hmatches⟩
  · rintro ⟨p, ⟨s, hp⟩, hmatches⟩
    exact h.hasChild_of hp (isChildMatch_iff.2 hmatches)

theorem Inv.zombieSlot_ne (h : Inv w) (hchild : w.IsChild caller target p) (hzombie : p.state = .zombie) :
    w.table.zombieSlot caller (waitTarget target) ≠ none := by
  obtain ⟨⟨s, hp⟩, hmatches⟩ := hchild
  intro hnone
  have hnot := SlotTable.firstSlot_eq_none.1 hnone s p (Nat.zero_le s) (h.valid.bounded s p hp) hp
  simp [isChildMatch_iff.2 hmatches, hzombie] at hnot

theorem Inv.fair (h : Inv w) (op : Op) (hmeets : Meets w op) : Fair w op := by
  cases op with
  | spawn _ _ _ | fork _ _ _ | exit _ _ | kill _ _ _ _ => trivial
  | wait caller target options ptr =>
    cases hcheck : waitCheck target options ptr with
    | some e =>
      have hchild : w.table.hasChild caller (waitTarget target) = true := by
        by_contra hno
        cases hcheck.symm.trans (hmeets.2 (by simpa using hno))
      have he : e ≠ .ECHILD := by
        rintro rfl
        unfold waitCheck at hcheck
        split_ifs at hcheck <;> simp at hcheck
      refine ⟨?_, ?_, fun hnone => by cases hcheck.symm.trans hnone⟩
      · rw [wait_of_check hcheck]
        exact fun _ _ => rfl
      · rw [wait_of_check hcheck, ← h.hasChild_iff]
        simp [hchild, he]
    | none =>
      cases hslot : w.table.zombieSlot caller (waitTarget target) with
      | none =>
        refine ⟨?_, ?_, fun _ ⟨p, hchild, hzombie⟩ => absurd hslot (h.zombieSlot_ne hchild hzombie)⟩
        · rw [wait_of_none hcheck hslot]
          exact fun _ _ => rfl
        · rw [wait_of_none hcheck hslot, ← h.hasChild_iff]
          by_cases hchild : w.table.hasChild caller (waitTarget target) = true
          · simp only [hchild, not_true, if_false, iff_false]
            split_ifs <;> simp
          · simp [hchild]
      | some s =>
        obtain ⟨p, hp, hmatch, hzombie⟩ := ProcessTable.zombieSlot_some hslot
        obtain ⟨st, -, hst, hwait⟩ := wait_of_zombie hcheck hslot hp (hmeets.ptr_ne hslot)
        have hchild : w.IsChild caller target p := ⟨⟨s, hp⟩, isChildMatch_iff.1 hmatch⟩
        refine ⟨?_, ?_, fun _ _ => ⟨p, st, ⟨hchild, hzombie⟩, hst, ?_, ?_⟩⟩
        · simp [hwait]
        · simpa [hwait] using ⟨p, hchild⟩
        · rw [hwait]
        · rw [hwait]

/-- **Exits are reported once.** In every run whose steps all meet the condition, each child that ended is returned by at
most one `wait`, of its own parent and with its first exit code, and until then stays there as a zombie; a valid `wait`
for a zombie returns it, or another one it names; a failing `wait` takes no child; `ECHILD` means that there is none. -/
theorem reported_once (ops : List Op) (hmeets : Along step Meets boot ops) :
    Truthful (run step boot ops) ∧ Along step Fair boot ops :=
  ⟨(inv_along inv_step boot ops inv_boot hmeets).truthful,
    along_of_inv inv_step (fun _ op h hop => h.fair op hop) boot ops inv_boot hmeets⟩

/-- the kernel's process 1 forks 2 and 3; 2 exits with 7, 3 is killed; 1 waits for any child and then for 3 -/
def twoChildren : List Op :=
  [.spawn none true true, .fork 1 false true, .fork 1 false true, .exit 2 7, .kill 1 3 9 false,
    .wait 1 (-1) 0 .writable, .wait 1 3 1 .null, .wait 1 (-1) 0 .writable]

theorem reported_of_twoChildren :
    Along step Meets boot twoChildren ∧
      (run step boot twoChildren).reports.map (fun r => (r.parent, r.child, r.status)) =
        [(1, 2, some (statusOf 7)), (1, 3, none)] ∧
      Truthful (run step boot twoChildren) ∧ Along step Fair boot twoChildren :=
  have hmeets : Along step Meets boot twoChildren := by decide +kernel
  ⟨hmeets, by decide +kernel, reported_once twoChildren hmeets⟩

/-- a child that exited with 7 and is killed afterwards is reported with 9; and a `wait` with a read-only status page fails
with `EFAULT`, after which there is no child left to wait for -/
theorem zombie_killed_again :
    (run step boot [.spawn none true true, .fork 1 false true, .exit 2 7, .kill 1 2 9 false,
        .wait 1 (-1) 0 .writable]).reports.map (fun r => (r.child, r.status)) = [(2, some (statusOf 9))] ∧
      ((run step boot [.spawn none true true, .fork 1 false true, .exit 2 7]).wait 1 (-1) 0 .readOnly).1 =
        .error .EFAULT ∧
      ((run step boot [.spawn none true true, .fork 1 false true, .exit 2 7, .wait 1 (-1) 0 .readOnly]).wait 1 (-1) 0
        .writable).1 = .error .ECHILD := by
  decide +kernel

end SwiftCore.Syscall.ChildExit
