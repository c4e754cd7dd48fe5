/-
The lock of the process table (`PROCESS_TABLE`, a spin lock that is not reentrant) in the calls that handle descriptors:
`close`, `dup2`, `lseek`, `fork`, `wait`, the close-on-exec part of `execve`, and `open` (`core/syscall/fs.rs`,
`process.rs`, `exec.rs`, `core/task/process.rs`, `fd_table.rs`).

A call is modelled by what it does to the lock and to the processor, in order. `with_process`, `with_process_mut` and the
functions over them hold the lock while their closure runs; so do `add` and `reap_zombie_child`. A request to the fs
service (`Contact`) looks the service up in the process table unless its id is cached, and yields until the answer is
there. Dropping the last handle on a remote descriptor makes such a request (`dropTrace`).

The environment decides what every request meets (`contact k`, for the `k`-th handle the call drops), what the file system
says to an `open`, and what the process table looks like each time a waiting parent looks again.

- `lastAt_iff`: dropping handles one after the other makes a request exactly at the last references.
- `sound_iff`: a call neither takes the lock twice nor yields with it iff the requests it makes under the lock all find
  the service cached and return without a yield.
- `fork_sound`: a `fork` is always sound where every counter counts at least one handle.
- `remote_handles_deadlock`: one remote file, and `lseek`, `dup2`, `execve`, `wait` or `open` breaks the discipline.
-/
import SwiftCore.Lib.LockTrace
import SwiftCore.Syscall.Files
import SwiftCore.Task.ProcessTable

namespace SwiftCore.Syscall.TableLock

open SwiftCore.Task LockTrace Files

abbrev Trace := List Event

/-! ## Requests to the fs service -/

/-- what a request meets -/
structure Contact where
  /-- `CACHED_FS_SERVICE_TID` is the id of a thread that exists -/
  cached : Bool
  /-- there is a process whose name contains `fs.service` -/
  named : Bool
  /-- the service was found and its mailbox took the request -/
  sent : Bool
  /-- yields of `recv_from_fs_with_timeout` until the answer, the end of the service or the timeout -/
  waits : ℕ

variable (c : Contact)

/-- `fs_service_tid`: each `find_process_id_by_name` locks the process table -/
def fsServiceTid : Trace := if c.cached then [] else locked [] ++ if c.named then [] else locked []

/-- `fs_service_tid` and `fs_service_request` -/
def request : Trace := fsServiceTid c ++ if c.sent then List.replicate c.waits .pause else []

/-- the service is cached, and the request fails or is answered at once -/
def Contact.Silent : Prop := c.cached ∧ (c.sent → c.waits = 0)

theorem free_request : Free (request c) := by
  have htid : Free (fsServiceTid c) := by
    unfold fsServiceTid
    split_ifs <;> rfl
  have hwait : Free (if c.sent then List.replicate c.waits Event.pause else []) := by
    split_ifs
    · exact Free.pauses c.waits
    · exact Free.nil
  exact htid.append hwait

theorem request_eq_nil {c : Contact} : request c = [] ↔ c.Silent := by
  have htid : fsServiceTid c = [] ↔ c.cached = true := by
    unfold fsServiceTid
    cases c.cached <;> simp [locked]
  have hwait : (if c.sent then List.replicate c.waits Event.pause else []) = [] ↔ (c.sent → c.waits = 0) := by
    cases c.sent <;> simp
  rw [request, List.append_eq_nil_iff, htid, hwait, Contact.Silent]

/-! ## Dropping handles -/

variable (st : Sys)

/-- `impl Drop for FileHandle` -/
def dropTrace (h : FileHandle) : Trace :=
  if h.isRemote then
    match h.remoteRefs with
    | some a => if st.refs a = 1 then request c else []
    | none => request c
  else []

/-- handles dropped one after the other, the first one being the `k`-th of the call -/
def dropAllTrace (contact : ℕ → Contact) : ℕ → Sys → List FileHandle → Trace
  | _, _, [] => []
  | k, st, h :: hs => dropTrace (contact k) st h ++ dropAllTrace contact (k + 1) (st.dropHandle h) hs

/-- `h` counts in counter `a` -/
def countsIn (a : ℕ) (h : FileHandle) : Bool := h.isRemote && h.remoteRefs = some a

/-- of the handles `hs`, dropped in order, the `i`-th one is the last reference to its remote descriptor -/
def LastAt (refs : ℕ → ℕ) (hs : List FileHandle) (i : ℕ) : Prop :=
  ∃ h, hs[i]? = some h ∧ h.isRemote = true ∧
    ∀ a, h.remoteRefs = some a → refs a = ((hs.take i).countP (countsIn a)) + 1

theorem free_dropTrace (h : FileHandle) : Free (dropTrace c st h) := by
  unfold dropTrace
  split_ifs
  · cases h.remoteRefs with
    | none => exact free_request c
    | some a =>
      simp only
      split_ifs
      · exact free_request c
      · exact Free.nil
  · exact Free.nil

variable (contact : ℕ → Contact)

theorem free_dropAllTrace (k : ℕ) (st : Sys) (hs : List FileHandle) :
    Free (dropAllTrace contact k st hs) := by
  induction hs generalizing k st with
  | nil => exact Free.nil
  | cons h hs ih => exact (free_dropTrace _ st h).append (ih (k + 1) _)

theorem dropTrace_eq_nil {c : Contact} {st : Sys} {h : FileHandle} :
    dropTrace c st h = [] ↔
      (h.isRemote = true → (∀ a, h.remoteRefs = some a → st.refs a = 1) → c.Silent) := by
  unfold dropTrace
  cases hremote : h.isRemote with
  | false => simp
  | true =>
    cases hrefs : h.remoteRefs with
    | none => simp [request_eq_nil]
    | some a => by_cases ha : st.refs a = 1 <;> simp [ha, request_eq_nil]

/-- a drop takes one from the handle's counter -/
theorem refs_dropHandle (h : FileHandle) (a : ℕ) :
    (st.dropHandle h).refs a = st.refs a - if countsIn a h then 1 else 0 := by
  unfold Sys.dropHandle countsIn
  cases hremote : h.isRemote with
  | false => simp
  | true =>
    cases hrefs : h.remoteRefs with
    | none => simp [Sys.closeRemote]
    | some b =>
      by_cases hab : b = a
      · subst hab
        by_cases hone : st.refs b = 1 <;> simp [hone, Sys.closeRemote]
      · have hne : a ≠ b := fun h => hab h.symm
        by_cases hone : st.refs b = 1 <;> simp [hone, hab, hne, Sys.closeRemote]

theorem lastAt_cons {st : Sys} {h : FileHandle} {hs : List FileHandle} {i : ℕ} :
    LastAt st.refs (h :: hs) (i + 1) ↔ LastAt (st.dropHandle h).refs hs i := by
  unfold LastAt
  simp only [List.getElem?_cons_succ, List.take_succ_cons, List.countP_cons, refs_dropHandle]
  refine exists_congr fun g => and_congr_right fun _ => and_congr_right fun _ => forall_congr' fun a => ?_
  apply imp_congr_right
  intro _
  split_ifs <;> omega

/-- dropping handles makes requests that are heard of exactly at the last references -/
theorem lastAt_iff (k : ℕ) (st : Sys) (hs : List FileHandle) :
    dropAllTrace contact k st hs = [] ↔ ∀ i, LastAt st.refs hs i → (contact (k + i)).Silent := by
  induction hs generalizing k st with
  | nil => simp [dropAllTrace, LastAt]
  | cons h hs ih =>
    rw [dropAllTrace, List.append_eq_nil_iff, dropTrace_eq_nil, ih]
    constructor
    · rintro ⟨hfirst, hrest⟩ i hlast
      cases i with
      | zero =>
        obtain ⟨g, hg, hremote, hcount⟩ := hlast
        obtain rfl : h = g := by simpa using hg
        exact hfirst hremote (by simpa using hcount)
      | succ i =>
        have hsilent := hrest i (lastAt_cons.1 hlast)
        rwa [Nat.add_right_comm, Nat.add_assoc] at hsilent
    · intro hall
      refine ⟨fun hremote hcount => hall 0 ⟨h, rfl, hremote, by simpa using hcount⟩, fun i hlast => ?_⟩
      have hsilent := hall (i + 1) (lastAt_cons.2 hlast)
      rwa [Nat.add_right_comm, Nat.add_assoc]

/-! ## Calls -/

structure World where
  table : ProcessTable
  /-- counters, pipes and logs of the descriptors -/
  files : Sys
  contact : ℕ → Contact

variable (w : World)

/-- the descriptors of the processes in the table -/
def World.sys : Sys :=
  { w.files with procs := fun s => (w.table.processes s).map fun p => ⟨p.id, p.fdTable⟩ }

/-- a request of `open` before it has a handle, and whether the loop yields after it (on `EIO`) -/
structure Ask where
  contact : Contact
  yields : Bool

inductive Call where
  | close (fd : ℕ)
  | dup2 (oldFd newFd : ℕ)
  | lseek (fd : ℕ)
  /-- `early`: the call ends before it copies the descriptors; `ok`: stack and thread of the child can be allocated -/
  | fork (early ok : Bool)
  /-- `valid`: the arguments pass the checks; `later`: what the tables look like each time the call looks again -/
  | wait (target : Option ℕ) (status wnohang valid : Bool) (later : List World)
  /-- the close-on-exec part of `execve` -/
  | execve
  /-- `reads`: accesses to the process table while the path is read and resolved -/
  | openFile (reads : ℕ) (asks : List Ask) (o : Opened) (flags : ℕ)

def closeTrace (pid fd : ℕ) : Trace :=
  if fd < fdBase ∨ processMaxFds ≤ fd then []
  else
    -- `take` moves the handle out of the closure: it is dropped at the end of `close`
    locked [] ++ match w.sys.handle pid fd with
      | none => []
      | some h => dropTrace (w.contact 0) w.sys h

def seekTrace (pid fd : ℕ) : Trace :=
  if fd < fdBase ∨ processMaxFds ≤ fd then []
  else
    locked <| match w.sys.handle pid fd with
      | none => []
      -- the size of a remote file is asked for inside the closure
      | some h => if h.isRemote then request (w.contact 0) else []

def dup2Trace (pid oldFd newFd : ℕ) : Trace :=
  if newFd < fdBase ∨ processMaxFds ≤ newFd then []
  else if oldFd = newFd then locked []
  else
    (if oldFd < fdBase ∨ processMaxFds ≤ oldFd then [] else locked []) ++
      match w.sys.cloneForDup2 pid oldFd with
      | none => []
      | some (h, st) =>
        locked <| match st.find pid with
          | none => dropAllTrace w.contact 0 st [h]
          | some (_, p) => dropAllTrace w.contact 0 st (p.fdTable.take newFd).1.toList

def forkTrace (pid : ℕ) (early ok : Bool) : Trace :=
  locked [] ++
    if early then []
    else
      let (child, st) := w.sys.cloneTable pid
      locked [] ++
        match SlotTable.firstFree 0 maxProcesses st.procs with
        -- `add` drops the process it cannot place
        | none => locked (dropAllTrace w.contact 0 st child.handles)
        | some _ => locked [] ++ if ok then [] else locked [] ++ dropAllTrace w.contact 0 st child.handles

/-- the loop of `wait`; `turns`: the tables as each turn finds them -/
def waitLoop (pid : ℕ) (target : Option ℕ) (status wnohang : Bool) : List World → Trace
  | [] => []
  | w :: later =>
    match w.table.zombieSlot pid target with
    | some s =>
      -- `reap_zombie_child` drops the process while its caller holds the lock
      locked (dropAllTrace w.contact 0 w.sys ((w.table.processes s).elim [] fun p => p.fdTable.handles)) ++
        if status then locked [] else []
    | none =>
      locked [] ++ locked [] ++
        if ¬ w.table.hasChild pid target ∨ wnohang then [] else .pause :: waitLoop pid target status wnohang later

def waitTrace (pid : ℕ) (target : Option ℕ) (status wnohang valid : Bool) (later : List World) : Trace :=
  (if status then locked [] else []) ++ if valid then waitLoop pid target status wnohang (w :: later) else []

def execveTrace (pid : ℕ) : Trace :=
  locked <| match w.sys.find pid with
    | none => []
    | some (_, p) => dropAllTrace w.contact 0 w.sys p.fdTable.closeCloexecFds.1

def askTrace (a : Ask) : Trace := request a.contact ++ if a.yields then [.pause] else []

/-- the handle of an `open` and the counters at that time -/
def Opened.handle (flags : ℕ) : Opened → Option (FileHandle × Sys)
  | .failed _ => none
  | .loc data pos dirPath => some (FileHandle.newLocal data pos dirPath flags, st)
  | .remote fdRemote dirPath =>
    some (FileHandle.newRemote fdRemote st.opened.length dirPath flags,
      { st with refs := Function.update st.refs st.opened.length 1 })

/-- the closure of an `open` has a descriptor for its handle -/
def hasRoom (pid : ℕ) : Bool :=
  (st.find pid).any fun sp => (SlotTable.firstFree fdBase processMaxFds sp.2.fdTable.entries).isSome

def openTrace (pid reads : ℕ) (asks : List Ask) (o : Opened) (flags : ℕ) : Trace :=
  (List.replicate reads (locked [])).flatten ++ (asks.map askTrace).flatten ++
    match Opened.handle w.sys flags o with
    | none => []
    | some (h, st) =>
      if hasRoom st pid then locked []
      else
        -- `alloc` drops the handle it cannot place, and `open` closes the remote descriptor once more
        locked (dropAllTrace w.contact 0 st [h]) ++ if h.isRemote then request (w.contact 1) else []

def Call.trace (pid : ℕ) : Call → Trace
  | .close fd => closeTrace w pid fd
  | .dup2 oldFd newFd => dup2Trace w pid oldFd newFd
  | .lseek fd => seekTrace w pid fd
  | .fork early ok => forkTrace w pid early ok
  | .wait target status wnohang valid later => waitTrace w pid target status wnohang valid later
  | .execve => execveTrace w pid
  | .openFile reads asks o flags => openTrace w pid reads asks o flags

/-! ## The handles a call drops under the lock -/

/-- handles dropped in order, the counters before that, and what the requests meet -/
structure Drops where
  refs : ℕ → ℕ
  contact : ℕ → Contact
  handles : List FileHandle

/-- every request made by dropping them is silent -/
def Drops.Quiet (d : Drops) : Prop := ∀ i, LastAt d.refs d.handles i → (d.contact i).Silent

def Drops.nothing : Drops := ⟨w.files.refs, w.contact, []⟩

/-- the turn of `wait` that finds a zombie, if there is one, and the slot of the zombie -/
def reapTurn (pid : ℕ) (target : Option ℕ) (wnohang : Bool) : List World → Option (World × ℕ)
  | [] => none
  | w :: later =>
    match w.table.zombieSlot pid target with
    | some s => some (w, s)
    | none => if ¬ w.table.hasChild pid target ∨ wnohang then none else reapTurn pid target wnohang later

/-- the descriptors of the process in slot `s` -/
def World.handlesOf (w : World) (s : ℕ) : List FileHandle :=
  (w.table.processes s).elim [] fun p => p.fdTable.handles

/-- what a call drops under the lock: the handle `dup2` replaces, the copies of a `fork` that finds no slot, the descriptors
of the child that `wait` reaps, those marked close-on-exec, and the handle for which `open` finds no descriptor -/
def Call.underLock (w : World) (pid : ℕ) : Call → Drops
  | .close _ => Drops.nothing w
  | .lseek _ => Drops.nothing w
  | .dup2 oldFd newFd =>
    if newFd < fdBase ∨ processMaxFds ≤ newFd ∨ oldFd = newFd then Drops.nothing w
    else
      match w.sys.cloneForDup2 pid oldFd with
      | none => Drops.nothing w
      | some (h, st) => ⟨st.refs, w.contact, (st.find pid).elim [h] fun sp => (sp.2.fdTable.take newFd).1.toList⟩
  | .fork early _ =>
    if early ∨ (SlotTable.firstFree 0 maxProcesses w.sys.procs).isSome then Drops.nothing w
    else ⟨(w.sys.cloneTable pid).2.refs, w.contact, (w.sys.cloneTable pid).1.handles⟩
  | .wait target _ wnohang valid later =>
    if valid then
      match reapTurn pid target wnohang (w :: later) with
      | none => Drops.nothing w
      | some (turn, s) => ⟨turn.files.refs, turn.contact, turn.handlesOf s⟩
    else Drops.nothing w
  | .execve =>
    ⟨w.files.refs, w.contact, (w.sys.find pid).elim [] fun sp => sp.2.fdTable.closeCloexecFds.1⟩
  | .openFile _ _ o flags =>
    match Opened.handle w.sys flags o with
    | none => Drops.nothing w
    | some (h, st) => if hasRoom st pid then Drops.nothing w else ⟨st.refs, w.contact, [h]⟩

/-- the requests of the call under the lock are all silent -/
def Call.Clear (w : World) (pid : ℕ) (call : Call) : Prop :=
  (call.underLock w pid).Quiet ∧
    ∀ fd h, call = .lseek fd → w.sys.handle pid fd = some h → h.isRemote = true → (w.contact 0).Silent

theorem quiet_nothing : (Drops.nothing w).Quiet := by
  rintro i ⟨h, hh, -⟩
  simp [Drops.nothing] at hh

theorem quiet_iff (hs : List FileHandle) :
    dropAllTrace contact 0 st hs = [] ↔ Drops.Quiet ⟨st.refs, contact, hs⟩ := by
  rw [lastAt_iff]
  simp [Drops.Quiet]

/-- a call with one section under the lock that drops handles, between parts that are fine on their own -/
theorem sound_section {pre post : Trace} (hpre : Free pre) (hpost : Free post) (contact : ℕ → Contact) (st : Sys)
    (hs : List FileHandle) :
    Sound (pre ++ (locked (dropAllTrace contact 0 st hs) ++ post)) ↔ Drops.Quiet ⟨st.refs, contact, hs⟩ := by
  rw [hpre.sound_append, sound_locked_append (free_dropAllTrace contact 0 st hs), quiet_iff]
  exact and_iff_left hpost.sound

theorem free_locked_if (b : Prop) [Decidable b] : Free (if b then locked [] else []) := by split_ifs <;> rfl

theorem free_locked_unless (b : Prop) [Decidable b] : Free (if b then [] else locked []) := by split_ifs <;> rfl

/-- a call that drops nothing under the lock and is not an `lseek` -/
theorem clear_of_nothing {w : World} {pid : ℕ} {call : Call} (h : call.underLock w pid = Drops.nothing w)
    (hseek : ∀ fd, call ≠ .lseek fd) : call.Clear w pid :=
  ⟨h ▸ quiet_nothing w, fun fd _ hcall => absurd hcall (hseek fd)⟩

theorem clear_iff {w : World} {pid : ℕ} {call : Call} (hseek : ∀ fd, call ≠ .lseek fd) :
    call.Clear w pid ↔ (call.underLock w pid).Quiet :=
  and_iff_left fun fd _ hcall => absurd hcall (hseek fd)

/-! ## One lemma per call -/

theorem sound_close (pid fd : ℕ) : Sound (closeTrace w pid fd) := by
  unfold closeTrace
  split_ifs
  · exact Free.nil.sound
  · rw [replay_locked.sound_append]
    cases w.sys.handle pid fd with
    | none => exact Free.nil.sound
    | some h => exact (free_dropTrace _ _ h).sound

theorem sound_seek (pid fd : ℕ) :
    Sound (seekTrace w pid fd) ↔
      ∀ h, w.sys.handle pid fd = some h → h.isRemote = true → (w.contact 0).Silent := by
  have hrange : ∀ h, w.sys.handle pid fd = some h → ¬ (fd < fdBase ∨ processMaxFds ≤ fd) := by
    intro h hh
    obtain ⟨sp, -, hget⟩ := Option.bind_eq_some_iff.1 hh
    obtain ⟨hlo, hhi, -⟩ := FdTable.get_some hget
    omega
  unfold seekTrace
  split_ifs with hfd
  · exact iff_of_true Free.nil.sound fun h hh => absurd hfd (hrange h hh)
  · cases hh : w.sys.handle pid fd with
    | none => simpa using replay_locked.sound
    | some h =>
      cases hremote : h.isRemote with
      | false => simpa [hremote] using replay_locked.sound
      | true => simp [hremote, sound_locked (free_request _), request_eq_nil]

theorem sound_dup2 (pid oldFd newFd : ℕ) :
    Sound (dup2Trace w pid oldFd newFd) ↔ ((Call.dup2 oldFd newFd).underLock w pid).Quiet := by
  rw [dup2Trace, Call.underLock]
  by_cases hrange : newFd < fdBase ∨ processMaxFds ≤ newFd
  · rw [if_pos hrange, if_pos (by tauto)]
    exact iff_of_true Free.nil.sound (quiet_nothing w)
  by_cases hsame : oldFd = newFd
  · rw [if_neg hrange, if_pos hsame, if_pos (by tauto)]
    exact iff_of_true replay_locked.sound (quiet_nothing w)
  have hdrops : ¬ (newFd < fdBase ∨ processMaxFds ≤ newFd ∨ oldFd = newFd) := by tauto
  rw [if_neg hrange, if_neg hsame, if_neg hdrops]
  have hpre := free_locked_unless (oldFd < fdBase ∨ processMaxFds ≤ oldFd)
  cases hclone : w.sys.cloneForDup2 pid oldFd with
  | none => exact iff_of_true (hpre.append Free.nil).sound (quiet_nothing w)
  | some hst =>
    obtain ⟨h, st⟩ := hst
    simp only
    cases st.find pid with
    | none => simpa using sound_section hpre Free.nil w.contact st [h]
    | some sp => simpa using sound_section hpre Free.nil w.contact st (sp.2.fdTable.take newFd).1.toList

theorem cloneTable_procs (pid : ℕ) : (st.cloneTable pid).2.procs = st.procs := by
  have hbump : ∀ (hs : List FileHandle) (st : Sys), (st.bumpAll hs).procs = st.procs := by
    intro hs
    induction hs with
    | nil => exact fun st => rfl
    | cons h hs ih =>
      intro st
      calc (st.bumpAll (h :: hs)).procs = ((st.bump h).bumpAll hs).procs := rfl
        _ = (st.bump h).procs := ih _
        _ = st.procs := by
          unfold Sys.bump
          cases h.clone.remoteRefs <;> rfl
  unfold Sys.cloneTable
  cases st.find pid with
  | none => rfl
  | some sp => exact hbump _ st

variable (pid : ℕ)

theorem sound_fork (early ok : Bool) :
    Sound (forkTrace w pid early ok) ↔ ((Call.fork early ok).underLock w pid).Quiet := by
  rw [forkTrace, Call.underLock]
  rw [replay_locked.sound_append]
  cases early with
  | true => exact iff_of_true Free.nil.sound (by simpa using quiet_nothing w)
  | false =>
    simp only [Bool.false_eq_true, if_false, false_or]
    rw [replay_locked.sound_append, cloneTable_procs]
    cases SlotTable.firstFree 0 maxProcesses w.sys.procs with
    | none => simpa using sound_section Free.nil Free.nil w.contact (w.sys.cloneTable pid).2 (w.sys.cloneTable pid).1.handles
    | some s =>
      refine iff_of_true ?_ (by simpa using quiet_nothing w)
      rw [replay_locked.sound_append]
      cases ok with
      | true => exact Free.nil.sound
      | false =>
        simp only [Bool.false_eq_true, if_false, replay_locked.sound_append]
        exact (free_dropAllTrace _ _ _ _).sound

/-- the loop of `wait`: induction on the turns; a turn that reaps is the last one -/
theorem sound_waitLoop (target : Option ℕ) (status wnohang : Bool) (turns : List World) :
    Sound (waitLoop pid target status wnohang turns) ↔
      ∀ turn s, reapTurn pid target wnohang turns = some (turn, s) →
        Drops.Quiet ⟨turn.files.refs, turn.contact, turn.handlesOf s⟩ := by
  induction turns with
  | nil => exact iff_of_true Free.nil.sound fun turn s h => by simp [reapTurn] at h
  | cons w later ih =>
    rw [waitLoop, reapTurn]
    cases hslot : w.table.zombieSlot pid target with
    | some s =>
      have hsection := sound_section Free.nil (free_locked_if (status = true)) w.contact w.sys (w.handlesOf s)
      rw [List.nil_append] at hsection
      refine hsection.trans ⟨fun hquiet turn s' h => ?_, fun h => h w s rfl⟩
      cases h
      exact hquiet
    | none =>
      simp only
      rw [(replay_locked.append replay_locked).sound_append]
      by_cases hstop : ¬ w.table.hasChild pid target ∨ wnohang
      · rw [if_pos hstop, if_pos hstop]
        exact iff_of_true Free.nil.sound fun turn s h => by simp at h
      · rw [if_neg hstop, if_neg hstop, ← ih]
        exact (Free.pauses 1).sound_append

theorem sound_wait (target : Option ℕ) (status wnohang valid : Bool) (later : List World) :
    Sound (waitTrace w pid target status wnohang valid later) ↔
      ((Call.wait target status wnohang valid later).underLock w pid).Quiet := by
  rw [waitTrace, Call.underLock]
  rw [(free_locked_if (status = true)).sound_append]
  cases valid with
  | false => exact iff_of_true Free.nil.sound (quiet_nothing w)
  | true =>
    simp only [if_true, sound_waitLoop]
    cases hturn : reapTurn pid target wnohang (w :: later) with
    | none => exact iff_of_true (fun turn s h => by simp at h) (quiet_nothing w)
    | some found =>
      obtain ⟨turn, s⟩ := found
      refine ⟨fun h => h turn s rfl, fun hquiet turn' s' h => ?_⟩
      cases h
      exact hquiet

theorem sound_execve : Sound (execveTrace w pid) ↔ (Call.execve.underLock w pid).Quiet := by
  have hrefs : w.files.refs = w.sys.refs := rfl
  rw [execveTrace, Call.underLock, hrefs]
  cases w.sys.find pid with
  | none => exact iff_of_true replay_locked.sound (quiet_nothing w)
  | some sp => simpa using sound_section Free.nil Free.nil w.contact w.sys sp.2.fdTable.closeCloexecFds.1

theorem free_askTrace (a : Ask) : Free (askTrace a) := by
  have hpause : Free (if a.yields then [Event.pause] else []) := by split_ifs <;> rfl
  exact (free_request a.contact).append hpause

theorem sound_open (pid reads : ℕ) (asks : List Ask) (o : Opened) (flags : ℕ) :
    Sound (openTrace w pid reads asks o flags) ↔ ((Call.openFile reads asks o flags).underLock w pid).Quiet := by
  have hreads : Free (List.replicate reads (locked [])).flatten := by
    apply Free.flatten
    intro tr htr
    rw [(List.mem_replicate.1 htr).2]
    exact replay_locked
  have hasks : Free (asks.map askTrace).flatten := by
    apply Free.flatten
    intro tr htr
    obtain ⟨a, -, rfl⟩ := List.mem_map.1 htr
    exact free_askTrace a
  rw [openTrace, Call.underLock]
  cases Opened.handle w.sys flags o with
  | none => exact iff_of_true ((hreads.append hasks).append Free.nil).sound (quiet_nothing w)
  | some hst =>
    obtain ⟨h, st⟩ := hst
    simp only
    by_cases hroom : hasRoom st pid = true
    · rw [if_pos hroom, if_pos hroom]
      exact iff_of_true ((hreads.append hasks).append replay_locked).sound (quiet_nothing w)
    · rw [if_neg hroom, if_neg hroom]
      have hpost : Free (if h.isRemote then request (w.contact 1) else []) := by
        split_ifs
        · exact free_request _
        · exact Free.nil
      exact sound_section (hreads.append hasks) hpost w.contact st [h]

/-- **No self-deadlock.** A call neither takes the lock of the process table twice nor yields with it iff every request it
makes under the lock is silent: those of the handles it drops there, and the one of an `lseek` on a remote file. -/
theorem sound_iff (w : World) (pid : ℕ) (call : Call) : Sound (call.trace w pid) ↔ call.Clear w pid := by
  cases call with
  | close fd => exact iff_of_true (sound_close w pid fd) (clear_of_nothing rfl (by simp))
  | dup2 oldFd newFd => exact (sound_dup2 w pid oldFd newFd).trans (clear_iff (by simp)).symm
  | lseek fd =>
    refine (sound_seek w pid fd).trans ⟨fun h => ⟨quiet_nothing w, fun fd' g hfd => ?_⟩, fun h g => h.2 fd g rfl⟩
    cases hfd
    exact h g
  | fork early ok => exact (sound_fork w pid early ok).trans (clear_iff (by simp)).symm
  | wait target status wnohang valid later =>
    exact (sound_wait w pid target status wnohang valid later).trans (clear_iff (by simp)).symm
  | execve => exact (sound_execve w pid).trans (clear_iff (by simp)).symm
  | openFile reads asks o flags => exact (sound_open w pid reads asks o flags).trans (clear_iff (by simp)).symm

/-! ## Forks and the calls that deadlock -/

theorem countsIn_clone (a : ℕ) (h : FileHandle) : countsIn a h.clone = countsIn a h := by
  cases hremote : h.isRemote <;> simp [countsIn, FileHandle.clone, hremote]

theorem refs_bumpAll (hs : List FileHandle) (a : ℕ) :
    (st.bumpAll hs).refs a = st.refs a + hs.countP (countsIn a) := by
  induction hs generalizing st with
  | nil => rfl
  | cons h hs ih =>
    have hbump : (st.bump h).refs a = st.refs a + if countsIn a h then 1 else 0 := by
      unfold Sys.bump countsIn FileHandle.clone
      cases hremote : h.isRemote with
      | false => simp
      | true =>
        cases hrefs : h.remoteRefs with
        | none => simp
        | some b =>
          by_cases hab : a = b
          · simp [hab]
          · simp [hab, Ne.symm hab]
    calc (st.bumpAll (h :: hs)).refs a = ((st.bump h).bumpAll hs).refs a := rfl
      _ = (st.bump h).refs a + hs.countP (countsIn a) := ih _
      _ = st.refs a + (h :: hs).countP (countsIn a) := by
        rw [hbump, List.countP_cons]
        omega

theorem handles_cloneForFork (t : FdTable) : t.cloneForFork.handles = t.handles.map FileHandle.clone := by
  simp [FdTable.handles, FdTable.cloneForFork, SlotTable.select, List.map_filterMap]

/-- **Forks are sound.** Where every remote handle of the caller has a counter that counts at least one handle, the copies
of a `fork` that fails are never last references. -/
theorem fork_sound (early ok : Bool)
    (hcounted : ∀ s p, w.sys.find pid = some (s, p) → ∀ h ∈ p.fdTable.handles, h.isRemote = true →
      ∃ a, h.remoteRefs = some a ∧ 1 ≤ w.files.refs a) : Sound (forkTrace w pid early ok) := by
  rw [sound_fork, Call.underLock]
  split_ifs with hroom
  · exact quiet_nothing w
  rintro i ⟨h, hh, hremote, hlast⟩
  exfalso
  cases hfind : w.sys.find pid with
  | none =>
    have hnone : FdTable.new.handles[i]? = none := by simp [FdTable.handles, FdTable.new, SlotTable.select]
    simp only [Sys.cloneTable, hfind] at hh
    simp [hnone] at hh
  | some sp =>
    obtain ⟨s, p⟩ := sp
    simp only [Sys.cloneTable, hfind, handles_cloneForFork] at hh hlast
    obtain ⟨g, hg, rfl⟩ : ∃ g, p.fdTable.handles[i]? = some g ∧ g.clone = h := by simpa using hh
    have hgremote : g.isRemote = true := hremote
    obtain ⟨a, ha, hpos⟩ := hcounted s p hfind g (List.mem_of_getElem? hg) hgremote
    have hrefs := hlast a (by simp [FileHandle.clone, hgremote, ha])
    -- the copy itself is one of those counted, so the counter was zero before the copies were made
    have hsplit : p.fdTable.handles.countP (countsIn a) =
        (p.fdTable.handles.take i).countP (countsIn a) + (p.fdTable.handles.drop i).countP (countsIn a) := by
      rw [← List.countP_append, List.take_append_drop]
    have hself : 0 < (p.fdTable.handles.drop i).countP (countsIn a) := by
      apply List.countP_pos_iff.2
      refine ⟨g, List.mem_of_getElem? (i := 0) (by simpa using hg), by simp [countsIn, hgremote, ha]⟩
    have hclones : ((p.fdTable.handles.map FileHandle.clone).take i).countP (countsIn a) =
        (p.fdTable.handles.take i).countP (countsIn a) := by
      rw [← List.map_take, List.countP_map]
      apply List.countP_congr
      intro g' _
      simp [countsIn_clone]
    have hsum := refs_bumpAll w.sys p.fdTable.handles a
    have hbase : w.sys.refs a = w.files.refs a := rfl
    omega

/-- process 1 with one remote file, its descriptors all taken and marked close-on-exec, and its dead child 2, which has a
remote file of its own; the service is cached and answers after one turn of the scheduler -/
def remoteFiles : World where
  table :=
    ⟨fun s =>
      if s = 0 then
        some ⟨1, .running, none, none,
          ⟨fun fd => some (if fd = 3 then FileHandle.newRemote 7 0 none 0 else FileHandle.tty), fun fd => if fd = 3 then 1 else 0⟩⟩
      else if s = 1 then
        some ⟨2, .zombie, some 1, some 0,
          ⟨fun fd => if fd = 3 then some (FileHandle.newRemote 8 1 none 0) else none, fun _ => 0⟩⟩
      else none, 2⟩
  files := ⟨fun _ => none, 3, PipeTable.new, fun _ => 1, [7, 8], [], 0, fun _ => true⟩
  contact := fun _ => ⟨true, true, true, 1⟩

/-- the same with a full process table -/
def crowded : World :=
  { remoteFiles with
    table := { remoteFiles.table with
      processes := fun s => (remoteFiles.table.processes s).or (some ⟨s + 1, .running, none, none, FdTable.new⟩) } }

/-- `fork` fails and drops the copies under the lock, and is sound all the same -/
theorem fork_sound_remote : SlotTable.firstFree 0 maxProcesses crowded.table.processes = none ∧
    Sound (forkTrace crowded 1 false false) := by
  have hrefs : ∀ sp ∈ crowded.sys.find 1, ∀ h ∈ sp.2.fdTable.handles, h.isRemote = true → h.remoteRefs = some 0 := by
    decide +kernel
  exact ⟨by decide +kernel,
    fork_sound _ 1 false false fun s p hfind h hh hremote => ⟨0, hrefs (s, p) hfind h hh hremote, le_rfl⟩⟩

/-- a remote file is enough for each of the calls to yield with the lock of the process table; with the id of the service
not cached, `lseek` takes the lock twice -/
theorem remote_handles_deadlock :
    ¬ Sound ((Call.lseek 3).trace remoteFiles 1) ∧ ¬ Sound ((Call.dup2 0 3).trace remoteFiles 1) ∧
      ¬ Sound (Call.execve.trace remoteFiles 1) ∧
      ¬ Sound ((Call.wait none true false true []).trace remoteFiles 1) ∧
      ¬ Sound ((Call.openFile 1 [] (.remote 9 none) 0).trace remoteFiles 1) ∧
      ¬ Sound ((Call.lseek 3).trace { remoteFiles with contact := fun _ => ⟨false, true, true, 0⟩ } 1) := by
  decide +kernel

end SwiftCore.Syscall.TableLock
