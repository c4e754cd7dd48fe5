/-
Readers that wait on a pipe (core/syscall/pipe.rs: pipe_read_blocking, pipe_write, close_write_end; core/task/scheduler.rs:
wake_thread, sleep_thread_unless_woken, yield_now).

A thread inside `pipe_read_blocking` is at one of the points between the steps of the loop: it checks the pipe and
registers as its waiter, goes to sleep unless it was woken, yields, clears the waiter and checks again. Between any two
steps of one thread others may run. The timer does not switch away from a thread that has gone to sleep but still runs:
such a thread is inside its system call, where `scheduler_tick` refuses to switch. Wake-ups that come from elsewhere are
allowed everywhere.
- `Safe`: what is known of the thread inside, for each point it can be at.
- `awake_of_lone_readers`: as long as a reader that starts to wait is the only thread inside, no thread sleeps there while
  the pipe has data or no writers, without a wake-up to come.
- `second_reader_sleeps_through`: with two readers the first one is not woken.
-/
import SwiftCore.Lib.Run
import SwiftCore.Syscall.Pipe
import SwiftCore.Task.Scheduler

namespace SwiftCore.Syscall.PipeWait

open Run SwiftCore.Task SwiftCore.Task.Threads Function

/-! ## Model -/

/-- where a thread is in the loop of `pipe_read_blocking` -/
inductive Point
  | outside
  /-- behind the check: registered as waiter -/
  | registered
  /-- behind `sleep_thread_unless_woken` -/
  | slept
  /-- inside or behind `yield_now` -/
  | yielded
  /-- behind `clear_waiter` -/
  | cleared
deriving DecidableEq, Repr

structure World where
  threads : Threads
  current : ℕ
  table : PipeTable
  /-- `waiter` of the pipe -/
  waiter : ℕ
  points : ℕ → Point

inductive Op
  /-- the check of a read of `n` bytes -/
  | check (n : ℕ)
  | sleep
  | yield
  | clear
  | write (data : List UInt8)
  | closeWriteEnd
  /-- the timer -/
  | tick
  /-- a wake-up from elsewhere -/
  | wake (tid : ℕ)

def World.point (w : World) : Point := w.points w.current

/-- the current thread goes to another point -/
def World.goto (w : World) (p : Point) : World := { w with points := update w.points w.current p }

/-- `wake_reader` -/
def wakeReader (w : World) : World := if w.waiter ≠ 0 then { w with threads := wakeThread w.threads w.waiter } else w

/-- `schedule` and the switch to its pick -/
def switch (w : World) : World :=
  { w with threads := (schedule w.threads (some w.current)).2
           current := ((schedule w.threads (some w.current)).1).getD w.current }

/-- the thread has gone to sleep -/
def Asleep (q : Threads) (tid : ℕ) : Prop := ∃ t, q.get tid = some t ∧ t.state = .sleeping

instance (q : Threads) (tid : ℕ) : Decidable (Asleep q tid) :=
  match h : q.get tid with
  | none => isFalse fun ⟨_, ht, _⟩ => nomatch h.symm.trans ht
  | some t =>
    if hs : t.state = .sleeping then isTrue ⟨t, h, hs⟩
    else isFalse fun ⟨_, ht, hs'⟩ => hs (Option.some.inj (h.symm.trans ht) ▸ hs')

/-- `close_write_end` wakes the reader when no writer is left -/
def closeWriteEnd (id : ℕ) (w : World) : World :=
  match w.table.get id with
  | none => w
  | some pb =>
    let w := { w with table := w.table.closeWriteEnd id }
    if pb.writeRefs - 1 = 0 then wakeReader w else w

def step (id : ℕ) (w : World) : Op → World
  | .check n =>
    if w.point = .outside ∨ w.point = .cleared then
      match w.table.pipeReadTurn id n with
      | (.wait, t) => { w with table := t, waiter := w.current }.goto .registered
      | (_, t) => { w with table := t }.goto .outside
    else w
  | .sleep =>
    if w.point = .registered then
      { w with threads := (sleepThreadUnlessWoken w.threads w.current).2 }.goto .slept
    else w
  | .yield => if w.point = .slept then switch (w.goto .yielded) else w
  | .clear => if w.point = .yielded then { w with waiter := 0 }.goto .cleared else w
  | .write data =>
    if w.point = .outside then
      match w.table.pipeWrite id data with
      | (.ok _, t) => wakeReader { w with table := t }
      | (.error _, _) => w
    else w
  | .closeWriteEnd => if w.point = .outside then closeWriteEnd id w else w
  | .tick => if Asleep w.threads w.current then w else switch w
  | .wake tid => { w with threads := wakeThread w.threads tid }

/-- the pipe has data, or no writers -/
def Available (id : ℕ) (t : PipeTable) : Prop := ∃ pb, t.get id = some pb ∧ (0 < pb.len ∨ pb.writeRefs = 0)

/-- a thread sleeps inside the read, nothing will wake it, and the pipe has data or no writers -/
def SleepsThrough (id : ℕ) (w : World) : Prop :=
  Available id w.table ∧ ∃ tid t, w.points tid ≠ .outside ∧ w.threads.get tid = some t ∧ t.state = .sleeping ∧
    t.pendingWakeup = false

/-- the condition: a reader that finds nothing to read is the only thread inside -/
def Lone (id : ℕ) (w : World) : Op → Prop
  | .check n => (w.table.pipeReadTurn id n).1 = .wait → ∀ tid, tid ≠ w.current → w.points tid = .outside
  | _ => True

/-! ## The invariant -/

/-- what is known of thread `r` at each point of the loop, with the pipe available or not -/
def Safe (available : Prop) (current waiter r : ℕ) (t : Thread) : Point → Prop
  | .outside => True
  | .registered => waiter = r ∧ (available → t.pendingWakeup = true) ∧
      (t.state = .sleeping → r = current ∧ ¬ available)
  | .slept | .yielded => waiter = r ∧ (available → t.state ≠ .sleeping)
  | .cleared => t.state = .sleeping → r = current ∧ ¬ available

/-- one thread at most is inside, and it is safe -/
structure Inv (id : ℕ) (w : World) : Prop where
  turns : Turns w.threads w.current
  lone : ∀ {r s}, w.points r ≠ .outside → w.points s ≠ .outside → r = s
  inside : ∀ {r}, w.points r ≠ .outside → ∃ t, w.threads.get r = some t ∧ Lively t ∧
    Safe (Available id w.table) w.current w.waiter r t (w.points r)

section Safe

variable {available available' : Prop} {current current' waiter r : ℕ} {t u : Thread} {p : Point}

section

variable (h : Safe available current waiter r t p)

include h

theorem Safe.mono (himp : available' → available) : Safe available' current waiter r t p := by
  cases p with
  | outside => trivial
  | registered => exact ⟨h.1, fun ha => h.2.1 (himp ha), fun hs => ⟨(h.2.2 hs).1, fun ha => (h.2.2 hs).2 (himp ha)⟩⟩
  | slept | yielded => exact ⟨h.1, fun ha => h.2 (himp ha)⟩
  | cleared => exact fun hs => ⟨(h hs).1, fun ha => (h hs).2 (himp ha)⟩

/-- a thread is switched away from only at `yield_now`, or while it does not sleep -/
theorem Safe.turned (hturn : Turned t u) (haway : p = .slept ∨ p = .yielded ∨ r ≠ current ∨ t.state ≠ .sleeping) :
    Safe available current' waiter r u p := by
  have hno : p ≠ .slept → p ≠ .yielded → (t.state = .sleeping → r = current ∧ ¬ available) → u.state ≠ .sleeping := by
    intro h1 h2 himp hs
    rcases haway with hp | hp | hne | hne
    · exact h1 hp
    · exact h2 hp
    · exact hne (himp (hturn.asleep hs)).1
    · exact hne (hturn.asleep hs)
  cases p with
  | outside => trivial
  | registered =>
    exact ⟨h.1, fun ha => hturn.pendingWakeup.trans (h.2.1 ha), fun hs => absurd hs (hno nofun nofun h.2.2)⟩
  | slept | yielded => exact ⟨h.1, fun ha hs => h.2 ha (hturn.asleep hs)⟩
  | cleared => exact fun hs => absurd hs (hno nofun nofun h)

/-- whatever becomes of the pipe, the thread is safe once its waiter was woken by another thread -/
theorem Safe.woken (hlively : Lively t) (hne : r ≠ current)
    (hrun : t.state ≠ .running) : Safe available' current waiter r (if r = waiter then t.woken else t) p := by
  have hawake : ∀ {c : Prop}, (t.state = .sleeping → r = current ∧ c) →
      (if r = waiter then t.woken else t).state ≠ .sleeping := by
    intro c himp hs
    split_ifs at hs
    · exact t.woken_not_sleeping hs
    · exact hne (himp hs).1
  cases p with
  | outside => trivial
  | registered =>
    refine ⟨h.1, fun _ => ?_, fun hs => absurd hs (hawake h.2.2)⟩
    -- it does not run, sleep, block or end: it is ready and takes a note
    have hready : t.state = .ready := by
      cases hs : t.state with
      | ready => rfl
      | running => exact absurd hs hrun
      | blocked => exact absurd hs hlively.1
      | sleeping => exact absurd (h.2.2 hs).1 hne
      | terminated => exact absurd hs hlively.2
    rw [if_pos h.1.symm, Thread.woken_of_ready hready]
  | slept | yielded =>
    refine ⟨h.1, fun _ => ?_⟩
    rw [if_pos h.1.symm]
    exact t.woken_not_sleeping
  | cleared => exact fun hs => absurd hs (hawake h)

/-- a wake-up from elsewhere does no harm -/
theorem Safe.nudged : Safe available current waiter r t.woken p := by
  cases p with
  | outside => trivial
  | registered =>
    exact ⟨h.1, fun ha => Thread.woken_pendingWakeup (h.2.1 ha), fun hs => absurd hs t.woken_not_sleeping⟩
  | slept | yielded => exact ⟨h.1, fun _ => t.woken_not_sleeping⟩
  | cleared => exact fun hs => absurd hs t.woken_not_sleeping

end

end Safe

/-! ## Steps -/

variable {id : ℕ} {w : World}

/-- the invariant when nobody but the current thread can be inside -/
theorem inv_alone {w : World} (hturns : Turns w.threads w.current) (hout : ∀ r, r ≠ w.current → w.points r = .outside)
    (hin : w.points w.current ≠ .outside → ∃ t, w.threads.get w.current = some t ∧ Lively t ∧
      Safe (Available id w.table) w.current w.waiter w.current t (w.points w.current)) : Inv id w := by
  have hcur : ∀ {r}, w.points r ≠ .outside → r = w.current := fun {r} hr => by
    by_contra hne
    exact hr (hout r hne)
  refine ⟨hturns, fun hr hs => (hcur hr).trans (hcur hs).symm, fun {r} hr => ?_⟩
  obtain rfl := hcur hr
  exact hin hr

/-- the current thread, the only one inside, goes to a point where it is safe -/
theorem inv_goto {w : World} (hturns : Turns w.threads w.current) (hout : ∀ r, r ≠ w.current → w.points r = .outside)
    {t : Thread} (ht : w.threads.get w.current = some t) (hl : Lively t) {p : Point}
    (hs : Safe (Available id w.table) w.current w.waiter w.current t p) : Inv id (w.goto p) := by
  have hself : (w.goto p).points w.current = p := update_self ..
  refine inv_alone hturns (fun r hr => (update_of_ne hr ..).trans (hout r hr)) fun _ => ⟨t, ht, hl, ?_⟩
  show Safe _ _ _ _ _ ((w.goto p).points w.current)
  rwa [hself]

variable (h : Inv id w)

include h

theorem Inv.others_outside (hin : w.point ≠ .outside) {r : ℕ} (hr : r ≠ w.current) : w.points r = .outside := by
  by_contra hout
  exact hr (h.lone hout hin)

/-- the thread that runs is at a point of the call, and no other is -/
theorem Inv.at_point {p : Point} (hp : w.point = p) (hin : p ≠ .outside) :
    (∀ r, r ≠ w.current → w.points r = .outside) ∧ ∃ t, w.threads.get w.current = some t ∧ Lively t ∧
      Safe (Available id w.table) w.current w.waiter w.current t p := by
  subst hp
  exact ⟨fun r hr => h.others_outside hin hr, h.inside hin⟩

theorem inv_table {t : PipeTable} (ht : Available id t → Available id w.table) : Inv id { w with table := t } := by
  refine ⟨h.turns, h.lone, fun hr => ?_⟩
  obtain ⟨u, hu, hl, hs⟩ := h.inside hr
  exact ⟨u, hu, hl, hs.mono ht⟩

/-- the current thread is outside again -/
theorem inv_leave {t : PipeTable} (ht : Available id t → Available id w.table) :
    Inv id ({ w with table := t }.goto .outside) := by
  have hpoints : ∀ {r}, update w.points w.current .outside r ≠ .outside →
      r ≠ w.current ∧ w.points r ≠ .outside := by
    intro r hr
    have hne : r ≠ w.current := by
      rintro rfl
      exact hr (update_self ..)
    rw [update_of_ne hne] at hr
    exact ⟨hne, hr⟩
  refine ⟨h.turns, fun hr hs => h.lone (hpoints hr).2 (hpoints hs).2, fun {r} hr => ?_⟩
  obtain ⟨hne, hr⟩ := hpoints hr
  obtain ⟨u, hu, hl, hs⟩ := h.inside hr
  exact ⟨u, hu, hl, by simpa only [World.goto, update_of_ne hne] using hs.mono ht⟩

/-- the pipe changes and its waiter is woken, by a thread that is outside -/
theorem inv_wakeReader (hout : w.point = .outside) (t : PipeTable) : Inv id (wakeReader { w with table := t }) := by
  have hthreads : wakeReader { w with table := t } = { w with
      table := t, threads := if w.waiter ≠ 0 then wakeThread w.threads w.waiter else w.threads } := by
    unfold wakeReader
    split_ifs <;> rfl
  rw [hthreads]
  refine ⟨?_, h.lone, fun {r} hr => ?_⟩
  · dsimp only
    split_ifs
    · exact h.turns.wakeThread w.waiter
    · exact h.turns
  · obtain ⟨u, hu, hl, hs⟩ := h.inside hr
    have hne : r ≠ w.current := by
      rintro rfl
      exact hr hout
    refine ⟨if r = w.waiter then u.woken else u, ?_, ?_, hs.woken hl hne (h.turns.not_running hu hne)⟩
    · dsimp only
      split_ifs with h0 hrw hrw
      · rw [get_wakeThread, if_pos hrw, hu, Option.map_some]
      · rw [get_wakeThread, if_neg hrw, hu]
      · exact absurd (hrw.trans (not_not.1 h0)) (h.turns.get_nonzero hu)
      · exact hu
    · split_ifs
      · exact Thread.woken_lively hl
      · exact hl

/-- another thread gets its turn -/
theorem inv_switch (haway : w.point = .yielded ∨ ¬ Asleep w.threads w.current) : Inv id (switch w) := by
  refine ⟨h.turns.schedule, h.lone, fun {r} hr => ?_⟩
  obtain ⟨t, ht, hl, hs⟩ := h.inside hr
  obtain ⟨u, hu, hturn⟩ := get_schedule (some w.current) ht
  refine ⟨u, hu, hturn.lively hl, hs.turned hturn ?_⟩
  by_cases hcur : r = w.current
  · subst hcur
    rcases haway with hp | hp
    · exact .inr (.inl hp)
    · exact .inr (.inr (.inr fun hsleep => hp ⟨t, ht, hsleep⟩))
  · exact .inr (.inr (.inl hcur))

omit h

/-! ## The calls -/

/-- a turn of the read loop finds nothing, and the pipe is not available; or what it leaves was available before -/
theorem pipeReadTurn_cases (t : PipeTable) (id n : ℕ) :
    ((t.pipeReadTurn id n).1 = .wait ∧ (t.pipeReadTurn id n).2 = t ∧ ¬ Available id t) ∨
      ((t.pipeReadTurn id n).1 ≠ .wait ∧ (Available id (t.pipeReadTurn id n).2 → Available id t)) := by
  unfold PipeTable.pipeReadTurn
  cases hget : t.get id with
  | none => exact .inr ⟨nofun, fun h => h⟩
  | some pb =>
    dsimp only
    split_ifs with hlen hrefs
    · exact .inr ⟨nofun, fun _ => ⟨pb, hget, .inl hlen⟩⟩
    · exact .inr ⟨nofun, fun h => h⟩
    · refine .inl ⟨rfl, rfl, ?_⟩
      rintro ⟨pb', hget', havail⟩
      cases hget.symm.trans hget'
      rcases havail with hl | hr
      · exact hlen hl
      · exact hrefs hr

include h

theorem inv_check (n : ℕ) (hlone : Lone id w (.check n)) : Inv id (step id w (.check n)) := by
  rw [step]
  split_ifs with hp
  · rcases pipeReadTurn_cases w.table id n with ⟨hwait, hsame, hnot⟩ | ⟨hgo, himp⟩
    · have hturn : w.table.pipeReadTurn id n = (.wait, w.table) := Prod.ext hwait hsame
      rw [hturn]
      obtain ⟨t, ht, hl⟩ := h.turns.current
      exact inv_goto (w := { w with waiter := w.current }) (p := .registered) h.turns (fun r hr => hlone hwait r hr) ht hl
        ⟨rfl, fun ha => absurd ha hnot, fun _ => ⟨rfl, hnot⟩⟩
    · have hleave := inv_leave h himp
      rcases hturn : w.table.pipeReadTurn id n with ⟨turn, t⟩
      rw [hturn] at hleave hgo
      cases turn with
      | wait => exact absurd rfl hgo
      | bytes | eof => exact hleave
  · exact h

theorem inv_sleep : Inv id (step id w .sleep) := by
  rw [step]
  split_ifs with hp
  · obtain ⟨hother, t, ht, hl, hs⟩ := h.at_point hp nofun
    -- with a note the thread does not sleep; without one there is nothing to read
    unfold sleepThreadUnlessWoken
    rw [ht]
    dsimp only
    split_ifs with hpending
    · have hget : (w.threads.withThreadMut w.current fun t => { t with pendingWakeup := false }).get w.current =
          some { t with pendingWakeup := false } := by
        rw [get_withThreadMut (f := fun t => { t with pendingWakeup := false }) (fun _ => rfl), if_pos rfl, ht,
          Option.map_some]
      have hturns := h.turns.withThreadMut (f := fun t => { t with pendingWakeup := false }) (fun _ => rfl)
        (fun _ hr => hr) (fun _ hl => hl) w.current
      exact inv_goto (w := { w with threads := _ }) (p := .slept) hturns hother hget hl
        ⟨hs.1, fun ha hsleep => (hs.2.2 hsleep).2 ha⟩
    · have hget : (sleepThread w.threads w.current).get w.current = some (t.setState .sleeping) := by
        unfold sleepThread
        rw [get_withThreadMut (f := Thread.setState .sleeping) (fun _ => rfl), if_pos rfl, ht, Option.map_some]
      exact inv_goto (w := { w with threads := _ }) (p := .slept) (h.turns.sleepThread w.current) hother hget
        ⟨nofun, nofun⟩ ⟨hs.1, fun ha => absurd (hs.2.1 ha) hpending⟩
  · exact h

theorem inv_yield : Inv id (step id w .yield) := by
  rw [step]
  split_ifs with hp
  · obtain ⟨hother, t, ht, hl, hs⟩ := h.at_point hp nofun
    have hself : (w.goto .yielded).points w.current = .yielded := update_self ..
    exact inv_switch (inv_goto h.turns hother ht hl hs) (.inl hself)
  · exact h

theorem inv_clear : Inv id (step id w .clear) := by
  rw [step]
  split_ifs with hp
  · obtain ⟨hother, t, ht, hl, hs⟩ := h.at_point hp nofun
    exact inv_goto (w := { w with waiter := 0 }) (p := .cleared) h.turns hother ht hl
      fun hsleep => ⟨rfl, fun ha => hs.2 ha hsleep⟩
  · exact h

theorem inv_write (data : List UInt8) : Inv id (step id w (.write data)) := by
  rw [step]
  split_ifs with hp
  · rcases hwrite : w.table.pipeWrite id data with ⟨_ | n, t⟩
    · exact h
    · exact inv_wakeReader h hp t
  · exact h

omit h

/-- a close that leaves writers makes nothing available -/
theorem available_closeWriteEnd {t : PipeTable} {pb : PipeBuffer} (hget : t.get id = some pb)
    (hrefs : pb.writeRefs - 1 ≠ 0) (h : Available id (t.closeWriteEnd id)) : Available id t := by
  obtain ⟨pb', hget', havail⟩ := h
  unfold PipeTable.closeWriteEnd at hget'
  rw [hget] at hget'
  dsimp only at hget'
  rw [if_neg fun hboth => hrefs hboth.2, PipeTable.get_set (PipeTable.get_lt hget), if_pos rfl] at hget'
  cases hget'
  rcases havail with hlen | hzero
  · exact ⟨pb, hget, .inl hlen⟩
  · exact absurd hzero hrefs

include h

theorem inv_closeWriteEnd : Inv id (step id w .closeWriteEnd) := by
  rw [step]
  split_ifs with hp
  · unfold closeWriteEnd
    cases hget : w.table.get id with
    | none => exact h
    | some pb =>
      dsimp only
      split_ifs with hrefs
      · exact inv_wakeReader h hp _
      · exact inv_table h (available_closeWriteEnd hget hrefs)
  · exact h

theorem inv_tick : Inv id (step id w .tick) := by
  rw [step]
  split_ifs with hsleep
  · exact h
  · exact inv_switch h (.inr hsleep)

theorem inv_wake (tid : ℕ) : Inv id (step id w (.wake tid)) := by
  refine ⟨h.turns.wakeThread tid, h.lone, fun {r} hr => ?_⟩
  obtain ⟨t, ht, hl, hs⟩ := h.inside hr
  refine ⟨if r = tid then t.woken else t, ?_, ?_, ?_⟩
  · show (wakeThread w.threads tid).get r = _
    rw [get_wakeThread, ht]
    split_ifs <;> rfl
  · split_ifs
    · exact Thread.woken_lively hl
    · exact hl
  · split_ifs
    · exact hs.nudged
    · exact hs

/-- **Step.** While readers that start to wait are alone, the thread inside is safe. -/
theorem inv_step (op : Op) (hlone : Lone id w op) : Inv id (step id w op) := by
  cases op with
  | check n => exact inv_check h n hlone
  | sleep => exact inv_sleep h
  | yield => exact inv_yield h
  | clear => exact inv_clear h
  | write data => exact inv_write h data
  | closeWriteEnd => exact inv_closeWriteEnd h
  | tick => exact inv_tick h
  | wake tid => exact inv_wake h tid

theorem Inv.not_sleepsThrough : ¬ SleepsThrough id w := by
  rintro ⟨havail, r, t, hr, ht, hsleep, hpending⟩
  obtain ⟨u, hu, -, hs⟩ := h.inside hr
  cases ht.symm.trans hu
  cases hp : w.points r with
  | outside => exact hr hp
  | registered =>
    rw [hp] at hs
    exact absurd (hs.2.1 havail) (by rw [hpending]; nofun)
  | slept | yielded =>
    rw [hp] at hs
    exact hs.2 havail hsleep
  | cleared =>
    rw [hp] at hs
    exact (hs hsleep).2 havail

omit h

/-! ## Runs -/

/-- a system before anyone reads from the pipe -/
structure Started (w : World) : Prop where
  turns : Turns w.threads w.current
  outside : ∀ tid, w.points tid = .outside

/-- **No reader sleeps through.** Whatever threads do, as long as a reader that finds nothing is the only one inside: no
thread ever sleeps in a read of the pipe, without a wake-up to come, while the pipe has data or no writers. -/
theorem awake_of_lone_readers {w : World} (hw : Started w) (ops : List Op) (hc : Along (step id) (Lone id) w ops) :
    ¬ SleepsThrough id (run (step id) w ops) := by
  have hstart : Inv id w := inv_alone hw.turns (fun r _ => hw.outside r) fun h => absurd (hw.outside w.current) h
  exact (inv_along (I := Inv id) (fun _ op h hok => inv_step h op hok) w ops hstart hc).not_sleepsThrough

/-! ## Two readers -/

/-- threads 1, 2 and 3 with a pipe in slot 0 -/
def threeThreads : World where
  threads := ⟨fun
    | 0 => some ⟨1, 0, .running, false, false⟩
    | 1 => some ⟨2, 0, .ready, false, false⟩
    | 2 => some ⟨3, 0, .ready, false, false⟩
    | _ => none, 3⟩
  current := 1
  table := PipeTable.new.set 0 (some { PipeBuffer.new with readRefs := 2, writeRefs := 1 })
  waiter := 0
  points _ := .outside

theorem threeThreads_started : Started threeThreads := by
  have hslots : ∀ {i t}, threeThreads.threads.slots i = some t → i < 3 ∧ t.id = i + 1 ∧ (t.state = .running → i = 0) := by
    intro i t ht
    rcases i with _ | _ | _ | i
    · cases ht
      exact ⟨by decide, rfl, fun _ => rfl⟩
    · cases ht
      exact ⟨by decide, rfl, nofun⟩
    · cases ht
      exact ⟨by decide, rfl, nofun⟩
    · cases ht
  refine ⟨⟨fun i j t u _ _ ht hu hid => ?_, fun _ ht => ?_, fun _ ht hs => ?_, ?_⟩, fun _ => rfl⟩
  · have := (hslots ht).2.1
    have := (hslots hu).2.1
    omega
  · rw [(hslots ht).2.1]
    exact Nat.succ_ne_zero _
  · rw [(hslots ht).2.1, (hslots ht).2.2 hs]
    rfl
  · exact ⟨⟨1, 0, .running, false, false⟩, by decide +kernel, nofun, nofun⟩

/-- one reader waits and is woken by a write -/
def oneReader : List Op := [.check 1, .sleep, .yield, .write [7]]

theorem awake_of_oneReader : Along (step 0) (Lone 0) threeThreads oneReader ∧
    ¬ SleepsThrough 0 (run (step 0) threeThreads oneReader) := by
  have hlone : Along (step 0) (Lone 0) threeThreads oneReader := ⟨fun _ _ _ => rfl, trivial, trivial, trivial, trivial⟩
  exact ⟨hlone, awake_of_lone_readers threeThreads_started oneReader hlone⟩

/-- two readers wait, and then a byte is written -/
def twoReaders : List Op := [.check 1, .sleep, .yield, .check 1, .sleep, .yield, .write [7]]

/-- the second reader replaced the first as the waiter: the first one sleeps on -/
theorem second_reader_sleeps_through : SleepsThrough 0 (run (step 0) threeThreads twoReaders) := by
  refine ⟨?_, 1, ⟨1, 0, .sleeping, false, false⟩, by decide +kernel, by decide +kernel, rfl, rfl⟩
  have hlen : ((run (step 0) threeThreads twoReaders).table.get 0).map PipeBuffer.len = some 1 := by decide +kernel
  obtain ⟨pb, hget, hlen⟩ := Option.map_eq_some_iff.1 hlen
  exact ⟨pb, hget, .inl (by rw [hlen]; exact Nat.one_pos)⟩

end SwiftCore.Syscall.PipeWait
