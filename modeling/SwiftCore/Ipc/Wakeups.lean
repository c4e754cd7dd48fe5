/-
Wake-ups that are left over (core/syscall/ipc.rs: recv_blocking; core/syscall/pipe.rs: pipe_read_blocking, wake_reader;
core/task/scheduler.rs: wake_thread, sleep_thread_unless_woken, exit_current_task, wake_parent_ipc_waiter;
core/syscall/signal.rs: deliver_sigchld_to_parent, deliver_signal_to_pid, wake_first_thread_of).

Thread `r`, the first of its process, reads from pipes and receives messages, both blocking, in any order; other threads
write to the pipes, close them, send messages and signals to `r` and exit as its children, with a switch between any two
steps. An exiting child sends an empty message and then SIGCHLD. A wake-up that finds `r` ready is noted in
`pending_wakeup`, one flag for every kind of wait.
- `inv_step`: as long as no wake-up finds `r` ready, nothing is noted.
- `received_of_careful_run`: then every return of `recv_blocking` brings a message out of the mailbox.
- `woken_returns_empty`: two writes before the reader runs leave a note, and so does every child whose message wakes its
  parent; the next `recv_blocking` returns 0 without a message.
-/
import SwiftCore.Ipc.Mailbox
import SwiftCore.Syscall.PipeWait

namespace SwiftCore.Ipc.Wakeups

open Run SwiftCore.Task SwiftCore.Task.Threads Syscall Mailbox
open Syscall.PipeWait (Asleep)

/-! ## Model -/

/-- where `r` is: outside, in the loop of `pipe_read_blocking` on a pipe, or in that of `recv_blocking` -/
inductive Point
  | outside
  | reading (id : ℕ) (stage : PipeWait.Point)
  /-- registered as waiter of the mailbox -/
  | listening
  /-- behind `sleep_thread_unless_woken` -/
  | resting
  /-- inside or behind `yield_now` -/
  | resumed
deriving DecidableEq, Repr

/-- how `recv_blocking` returns -/
inductive Return
  | message (m : Message)
  | empty

def Return.isEmpty : Return → Bool
  | .message _ => false
  | .empty => true

structure World where
  threads : Threads
  current : ℕ
  table : PipeTable
  /-- `waiter` of each pipe -/
  waiters : ℕ → ℕ
  /-- the mailbox of `r` -/
  box : Mailbox
  point : Point
  /-- the returns of `recv_blocking` so far -/
  returns : List Return

inductive Op
  -- steps of `r`
  | readCheck (id n : ℕ)
  | readSleep
  | readYield
  | readClear
  | recvCheck
  | recvSleep
  | recvYield
  -- steps of other threads
  | write (id : ℕ) (data : List UInt8)
  | closeWriteEnd (id : ℕ)
  | send (payload : Payload)
  | signal
  | childExit
  | childSignal
  -- the timer
  | tick

/-- `schedule` and the switch to its pick -/
def switch (w : World) : World :=
  { w with threads := (schedule w.threads (some w.current)).2
           current := ((schedule w.threads (some w.current)).1).getD w.current }

/-- `wake_thread`, unless there is no waiter -/
def wake (q : Threads) (tid : ℕ) : Threads := if tid ≠ 0 then wakeThread q tid else q

/-- the locked part of a send to `r`, with the wake-up of the waiter -/
def deliverTo (r : Addr) (w : World) (payload : Payload) : World :=
  match w.box.deliver w.current r payload with
  | (true, box) => { w with box, threads := wake w.threads w.box.waiter }
  | (false, box) => { w with box }

/-- `exit_current_task` has begun -/
def exiting (w : World) : Bool := (w.threads.get w.current).any fun t => t.state = .terminated

/-- the end of the current thread: it is removed and the next one runs -/
def exitCurrent (w : World) : World :=
  { w with threads := ((schedule w.threads none).2.remove w.current).2
           current := ((schedule w.threads none).1).getD w.current }

def step (r : Addr) (w : World) : Op → World
  | .readCheck id n =>
    if w.current = r.tid ∧ (w.point = .outside ∨ w.point = .reading id .cleared) then
      match w.table.pipeReadTurn id n with
      | (.wait, t) =>
        { w with table := t, waiters := Function.update w.waiters id r.tid, point := .reading id .registered }
      | (_, t) => { w with table := t, point := .outside }
    else w
  | .readSleep =>
    match w.point with
    | .reading id .registered =>
      if w.current = r.tid then
        { w with threads := (sleepThreadUnlessWoken w.threads r.tid).2, point := .reading id .slept }
      else w
    | _ => w
  | .readYield =>
    match w.point with
    | .reading id .slept => if w.current = r.tid then switch { w with point := .reading id .yielded } else w
    | _ => w
  | .readClear =>
    match w.point with
    | .reading id .yielded =>
      if w.current = r.tid then
        { w with waiters := Function.update w.waiters id 0, point := .reading id .cleared }
      else w
    | _ => w
  | .recvCheck =>
    if w.current = r.tid ∧ (w.point = .outside ∨ w.point = .resumed) then
      match w.box.popValid r with
      | (some m, box) => { w with box, point := .outside, returns := w.returns ++ [.message m] }
      | (none, box) => { w with box := { box with waiter := r.tid }, point := .listening }
    else w
  | .recvSleep =>
    if w.current = r.tid ∧ w.point = .listening then
      match sleepThreadUnlessWoken w.threads r.tid with
      | (true, q) => { w with threads := q, point := .resting }
      | (false, q) =>
        { w with threads := q, box := if w.box.waiter = r.tid then { w.box with waiter := 0 } else w.box
                 point := .outside, returns := w.returns ++ [.empty] }
    else w
  | .recvYield => if w.current = r.tid ∧ w.point = .resting then switch { w with point := .resumed } else w
  | .write id data =>
    if w.current = r.tid ∨ exiting w then w
    else
      match w.table.pipeWrite id data with
      | (.ok _, t) => { w with table := t, threads := wake w.threads (w.waiters id) }
      | (.error _, _) => w
  | .closeWriteEnd id =>
    if w.current = r.tid ∨ exiting w then w
    else
      match w.table.get id with
      | none => w
      | some pb =>
        { w with table := w.table.closeWriteEnd id
                 threads := if pb.writeRefs - 1 = 0 then wake w.threads (w.waiters id) else w.threads }
  | .send payload => if w.current = r.tid ∨ exiting w then w else deliverTo r w payload
  -- `deliver_signal_to_pid`, also for a child that is killed
  | .signal => if w.current = r.tid ∨ exiting w then w else { w with threads := wakeThread w.threads r.tid }
  | .childExit =>
    if w.current = r.tid ∨ exiting w then w
    else
      let threads := w.threads.withThreadMut w.current (Thread.setState .terminated)
      deliverTo r { w with threads } (.bytes [])
  -- unless the timer came first: a terminated thread does not run again
  | .childSignal =>
    if w.current ≠ r.tid ∧ exiting w then exitCurrent { w with threads := wakeThread w.threads r.tid } else w
  | .tick => if Asleep w.threads w.current then w else switch w

/-- the thread that an operation may wake -/
def target (r : Addr) (w : World) : Op → ℕ
  | .write id _ | .closeWriteEnd id => w.waiters id
  | .send _ | .childExit => w.box.waiter
  | .signal | .childSignal => r.tid
  | _ => 0

/-- the condition: a wake-up of `r` does not find it ready -/
def Careful (r : Addr) (w : World) (op : Op) : Prop :=
  target r w op = r.tid → ∀ t, w.threads.get r.tid = some t → t.state ≠ .ready

instance (r : Addr) (w : World) (op : Op) : Decidable (Careful r w op) :=
  decidable_of_iff (target r w op = r.tid → (w.threads.get r.tid).all (fun t => t.state ≠ .ready) = true) <| by
    unfold Careful
    rw [Option.all_eq_true]
    simp only [decide_eq_true_eq]

/-- every return brought a message -/
def AllReceived (w : World) : Prop := ∀ ret ∈ w.returns, ∃ m, ret = .message m

/-! ## Nothing is noted -/

/-- `r` is in the table and no wake-up is noted for it -/
def Unnoted (tid : ℕ) (q : Threads) : Prop := ∃ t, q.get tid = some t ∧ t.pendingWakeup = false

variable {tid : ℕ} {q : Threads}

variable (h : Unnoted tid q)

include h

theorem unnoted_schedule (current : Option ℕ) : Unnoted tid (schedule q current).2 := by
  obtain ⟨t, ht, hp⟩ := h
  obtain ⟨u, hu, hturn⟩ := get_schedule current ht
  exact ⟨u, hu, hturn.pendingWakeup.trans hp⟩

/-- a change of another thread, or one that keeps the flag -/
theorem unnoted_withThreadMut {f : Thread → Thread} (hf : ∀ t, (f t).id = t.id) (id : ℕ)
    (hkeep : tid = id → ∀ t, q.get tid = some t → (f t).pendingWakeup = t.pendingWakeup) :
    Unnoted tid (q.withThreadMut id f) := by
  obtain ⟨t, ht, hp⟩ := h
  unfold Unnoted
  rw [get_withThreadMut hf, ht]
  split_ifs with hid
  · exact ⟨f t, rfl, (hkeep hid t ht).trans hp⟩
  · exact ⟨t, rfl, hp⟩

theorem unnoted_wake (id : ℕ)
    (hcareful : id = tid → ∀ t, q.get tid = some t → t.state ≠ .ready) : Unnoted tid (wake q id) := by
  unfold wake
  split_ifs
  · exact unnoted_withThreadMut h Thread.woken_id id fun hid t ht => Thread.woken_of_not_ready (hcareful hid.symm t ht)
  · exact h

/-- without a note the thread goes to sleep -/
theorem sleepThreadUnlessWoken_of_unnoted :
    sleepThreadUnlessWoken q tid = (true, sleepThread q tid) ∧ Unnoted tid (sleepThread q tid) := by
  refine ⟨?_, unnoted_withThreadMut h (f := Thread.setState .sleeping) (fun _ => rfl) tid fun _ _ _ => rfl⟩
  obtain ⟨t, ht, hp⟩ := h
  simp [sleepThreadUnlessWoken, ht, hp]

omit h

/-! ## Steps -/

/-- no wake-up is noted for `r`, and it got a message each time -/
structure Inv (r : Addr) (w : World) : Prop where
  unnoted : Unnoted r.tid w.threads
  received : AllReceived w

variable {r : Addr} {w : World}

theorem inv_switch (h : Inv r w) (p : Point) : Inv r (switch { w with point := p }) :=
  ⟨unnoted_schedule h.unnoted _, h.received⟩

theorem inv_deliverTo (h : Inv r w) (payload : Payload)
    (hcareful : w.box.waiter = r.tid → ∀ t, w.threads.get r.tid = some t → t.state ≠ .ready) :
    Inv r (deliverTo r w payload) := by
  unfold deliverTo
  rcases w.box.deliver w.current r payload with ⟨_ | _, box⟩
  · exact ⟨h.unnoted, h.received⟩
  · exact ⟨unnoted_wake h.unnoted _ hcareful, h.received⟩

theorem inv_signal (h : Inv r w) (hcareful : ∀ t, w.threads.get r.tid = some t → t.state ≠ .ready) :
    Inv r { w with threads := wakeThread w.threads r.tid } :=
  ⟨unnoted_withThreadMut h.unnoted Thread.woken_id r.tid fun _ t ht => Thread.woken_of_not_ready (hcareful t ht),
    h.received⟩

theorem inv_exitCurrent (h : Inv r w) (hne : r.tid ≠ w.current) : Inv r (exitCurrent w) := by
  refine ⟨?_, h.received⟩
  obtain ⟨t, ht, hp⟩ := unnoted_schedule h.unnoted none
  refine ⟨t, ?_, hp⟩
  show ((schedule _ none).2.remove w.current).2.get r.tid = some t
  rw [get_remove hne, ht]

/-- **Step.** As long as no wake-up finds `r` ready, nothing is noted and `r` does not return without a message. -/
theorem inv_step (h : Inv r w) (op : Op) (hc : Careful r w op) : Inv r (step r w op) := by
  cases op with
  | readCheck id n =>
    rw [step]
    split_ifs
    · rcases w.table.pipeReadTurn id n with ⟨_ | _ | _, t⟩ <;> exact ⟨h.unnoted, h.received⟩
    · exact h
  | readSleep =>
    obtain ⟨hsleep, hnext⟩ := sleepThreadUnlessWoken_of_unnoted h.unnoted
    rw [step]
    split
    · split_ifs
      · exact ⟨by rw [hsleep]; exact hnext, h.received⟩
      · exact h
    · exact h
  | readYield =>
    rw [step]
    split
    · split_ifs
      · exact inv_switch h _
      · exact h
    · exact h
  | readClear =>
    rw [step]
    split
    · split_ifs
      · exact ⟨h.unnoted, h.received⟩
      · exact h
    · exact h
  | recvCheck =>
    rw [step]
    split_ifs
    · rcases w.box.popValid r with ⟨_ | m, box⟩
      · exact ⟨h.unnoted, h.received⟩
      · refine ⟨h.unnoted, fun ret hret => ?_⟩
        rcases List.mem_append.1 hret with hret | hret
        · exact h.received ret hret
        · exact ⟨m, List.mem_singleton.1 hret⟩
    · exact h
  | recvSleep =>
    obtain ⟨hsleep, hnext⟩ := sleepThreadUnlessWoken_of_unnoted h.unnoted
    rw [step, hsleep]
    by_cases hp : w.current = r.tid ∧ w.point = .listening
    · rw [if_pos hp]
      exact ⟨hnext, h.received⟩
    · rw [if_neg hp]
      exact h
  | recvYield =>
    rw [step]
    split_ifs
    · exact inv_switch h _
    · exact h
  | write id data =>
    rw [step]
    split_ifs
    · exact h
    · rcases w.table.pipeWrite id data with ⟨_ | n, t⟩
      · exact h
      · exact ⟨unnoted_wake h.unnoted _ hc, h.received⟩
  | closeWriteEnd id =>
    rw [step]
    split_ifs
    · exact h
    · cases w.table.get id with
      | none => exact h
      | some pb =>
        refine ⟨?_, h.received⟩
        show Unnoted r.tid (if pb.writeRefs - 1 = 0 then wake w.threads (w.waiters id) else w.threads)
        split_ifs
        · exact unnoted_wake h.unnoted _ hc
        · exact h.unnoted
  | send payload =>
    rw [step]
    split_ifs
    · exact h
    · exact inv_deliverTo h payload hc
  | signal =>
    rw [step]
    split_ifs
    · exact h
    · exact inv_signal h (hc rfl)
  | childExit =>
    rw [step]
    split_ifs with hcur
    · exact h
    · have hne : r.tid ≠ w.current := fun heq => hcur (.inl heq.symm)
      have hend : Inv r { w with threads := w.threads.withThreadMut w.current (Thread.setState .terminated) } :=
        ⟨unnoted_withThreadMut h.unnoted (f := Thread.setState .terminated) (fun _ => rfl) w.current fun _ _ _ => rfl,
          h.received⟩
      refine inv_deliverTo hend _ fun hwaiter t ht => hc hwaiter t ?_
      rwa [get_withThreadMut (f := Thread.setState .terminated) fun _ => rfl, if_neg hne] at ht
  | childSignal =>
    rw [step]
    split_ifs with hcur
    · exact inv_exitCurrent (inv_signal h (hc rfl)) (Ne.symm hcur.1)
    · exact h
  | tick =>
    rw [step]
    split_ifs
    · exact h
    · exact inv_switch h w.point

/-! ## Runs -/

/-- `r` is in the table, nothing is noted for it, and it has not returned from `recv_blocking` yet -/
structure Started (r : Addr) (w : World) : Prop where
  unnoted : Unnoted r.tid w.threads
  returns : w.returns = []

/-- **No empty return.** Whatever `r` and the other threads do, as long as no wake-up finds `r` ready: every return of
`recv_blocking` brings a message out of the mailbox. -/
theorem received_of_careful_run {r : Addr} {w : World} (hw : Started r w) (ops : List Op)
    (hc : Along (step r) (Careful r) w ops) : AllReceived (run (step r) w ops) := by
  have hstart : Inv r w := ⟨hw.unnoted, fun ret hret => by rw [hw.returns] at hret; cases hret⟩
  exact (inv_along (I := Inv r) (fun _ op h hok => inv_step h op hok) w ops hstart hc).received

/-! ## A pipe and a mailbox -/

/-- thread 1, the reader, and thread 2, with a pipe in slot 0 -/
def twoThreads : World where
  threads := ⟨fun
    | 0 => some ⟨1, 0, .running, false, false⟩
    | 1 => some ⟨2, 0, .ready, false, false⟩
    | _ => none, 2⟩
  current := 1
  table := PipeTable.new.set 0 (some { PipeBuffer.new with readRefs := 1, writeRefs := 1 })
  waiters _ := 0
  box := Mailbox.new
  point := .outside
  returns := []

def reader : Addr := ⟨1, 0, 1⟩

/-- the reader waits for a byte and then for a message -/
def readThenReceive : List Op :=
  [.readCheck 0 1, .readSleep, .readYield, .write 0 [7], .tick, .readClear, .readCheck 0 1,
    .recvCheck, .recvSleep, .recvYield, .send (.bytes [8]), .tick, .recvCheck]

theorem twoThreads_started : Started reader twoThreads :=
  ⟨⟨⟨1, 0, .running, false, false⟩, by decide +kernel, rfl⟩, rfl⟩

theorem received_of_readThenReceive : AllReceived (run (step reader) twoThreads readThenReceive) ∧
    (run (step reader) twoThreads readThenReceive).returns.length = 1 := by
  exact ⟨received_of_careful_run twoThreads_started readThenReceive (by decide +kernel), by decide +kernel⟩

/-- the byte comes in two writes, both before the reader runs again -/
def readTwoWrites : List Op :=
  [.readCheck 0 2, .readSleep, .readYield, .write 0 [7], .write 0 [7], .tick, .readClear, .readCheck 0 2,
    .recvCheck, .recvSleep]

/-- thread 2 exits while the reader, its parent, waits for a message; the reader gets the message and waits again -/
def receiveAtExit : List Op :=
  [.recvCheck, .recvSleep, .recvYield, .childExit, .childSignal, .recvCheck, .recvCheck, .recvSleep]

theorem not_allReceived (h : true ∈ w.returns.map Return.isEmpty) : ¬ AllReceived w := by
  obtain ⟨ret, hret, hempty⟩ := List.mem_map.1 h
  intro hall
  obtain ⟨m, rfl⟩ := hall ret hret
  cases hempty

/-- the second write is noted, and so is the child's signal after its message; `recv_blocking` returns for the note -/
theorem woken_returns_empty :
    ¬ AllReceived (run (step reader) twoThreads readTwoWrites) ∧
      ¬ AllReceived (run (step reader) twoThreads receiveAtExit) :=
  ⟨not_allReceived (by decide +kernel), not_allReceived (by decide +kernel)⟩

end SwiftCore.Ipc.Wakeups
