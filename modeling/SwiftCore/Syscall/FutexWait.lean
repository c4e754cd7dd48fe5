/-
How a FUTEX_WAIT ends (core/syscall/process.rs: futex, wake_due_futex_waiters).

Threads call FUTEX_WAIT, with and without a timeout, and FUTEX_WAKE; the timer and wake-ups of other origin come between
any two critical sections. A critical section is one step: the block without interrupts that registers and sleeps, each
turn of the loop behind it, the locked search of FUTEX_WAKE and each access to a thread that follows, the timer
interrupt. The CPU changes hands where the code gives it up, in `yield_now`, or in a timer interrupt that finds the thread
outside a system call (`scheduler_tick`).

`removal` records for each thread how the entry of its latest wait left the queue, `returns` how the calls ended.
- `inv_step`: the entry, the flag and what removed the entry agree for every waiting thread.
- `wait_outcomes`: in every run no thread has two entries, and a queued wait returns SUCCESS if and only if FUTEX_WAKE
  removed its entry, ETIMEDOUT if and only if the timeout did, with no entry of the caller left behind.
-/
import SwiftCore.Lib.Run
import SwiftCore.Syscall.Futex
import SwiftCore.Syscall.Types

namespace SwiftCore.Syscall.FutexWait

open Run SwiftCore.Task SwiftCore.Task.Threads Futex Function

/-! ## Model -/

/-- where a thread is in `futex` -/
inductive Point
  | outside
  /-- FUTEX_WAIT, the deadline computed -/
  | started (uaddr val wakeTick : UInt64)
  /-- behind the reset of the flag -/
  | entering (uaddr val wakeTick : UInt64)
  /-- queued, inside or behind `yield_now` -/
  | waiting (uaddr wakeTick : UInt64)
  /-- behind a turn of the loop that goes on -/
  | again (uaddr wakeTick : UInt64)
  /-- FUTEX_WAKE with the threads still to wake; whether the flag of the first is reset -/
  | waking (l : List ℕ) (reset : Bool)
deriving DecidableEq, Repr

inductive Result
  | success | timedOut | again | fault
deriving DecidableEq, Repr

/-- what took an entry out of the queue -/
inductive Removal
  | wake | timeout
deriving DecidableEq, Repr

/-- the end of a FUTEX_WAIT -/
structure Return where
  tid : ℕ
  result : Result
  /-- the call had registered its thread -/
  queued : Bool
  removal : Option Removal
  /-- the thread still has an entry -/
  left : Bool
deriving DecidableEq, Repr

structure World where
  threads : Threads
  queue : FutexQueue
  ticks : UInt64
  current : ℕ
  points : ℕ → Point
  removal : ℕ → Option Removal
  returns : List Return

variable (w : World)

/-- what the futex functions see -/
def World.state : State := ⟨w.threads, w.queue⟩

inductive Op
  -- steps of the current thread; `valid` is the answer of `validate_user_ptr`, `read` that of `read_user_u32`
  | wait (uaddr val timeout : UInt64) (valid : Bool)
  | reset
  | enqueue (read : Option UInt32)
  | check
  | yield
  | wake (uaddr val : UInt64) (valid : Bool)
  | wakeNext
  -- wake-ups from elsewhere and the timer
  | wakeThread (tid : ℕ)
  | tick (slice : Bool)

def deadline (now timeout : UInt64) : UInt64 := if timeout = 0 then noTimeoutWakeTick else saturatingAddU64 now timeout

/-- `take_futex_timed_out` of a thread -/
def takeFutexTimedOut (q : Threads) (tid : ℕ) : Bool × Threads :=
  ((timedOut q tid).getD false, q.withThreadMut tid (setFutexTimedOut false))

/-- `schedule` and the switch to its pick -/
def switch : World :=
  { w with threads := (schedule w.threads (some w.current)).2
           current := ((schedule w.threads (some w.current)).1).getD w.current }

def goto (p : Point) : World := { w with points := update w.points w.current p }

/-- the current thread returns from FUTEX_WAIT -/
def leave (queued : Bool) (result : Result) : World :=
  { goto w .outside with
    returns := w.returns ++ [⟨w.current, result, queued, w.removal w.current,
      (SlotTable.firstSlot 0 maxFutexWaiters (fun e => e.tid = w.current) w.queue).isSome⟩] }

/-- the entries of the threads of `l` have been removed -/
def mark (removal : ℕ → Option Removal) (l : List ℕ) (cause : Removal) : ℕ → Option Removal :=
  fun t => if t ∈ l then some cause else removal t

/-- the block without interrupts that checks the value, registers, sleeps and yields -/
def enqueueBlock (uaddr val wakeTick : UInt64) (read : Option UInt32) : World :=
  match read with
  | none => leave w false .fault
  | some x =>
    if x ≠ val.toUInt32 then leave w false .again
    else
      match registerFutexWaiter w.queue w.current uaddr wakeTick with
      | (false, _) => leave w false .again
      | (true, queue) =>
        switch (goto { w with queue, threads := sleepThread w.threads w.current
                              removal := update w.removal w.current none } (.waiting uaddr wakeTick))

/-- one turn of the loop -/
def checkBlock (uaddr wakeTick : UInt64) : World :=
  let (out, threads) := takeFutexTimedOut w.threads w.current
  if out then leave { w with threads } true .timedOut
  else if !futexWaiterExists w.queue w.current uaddr then leave { w with threads } true .success
  else if wakeTick ≠ noTimeoutWakeTick ∧ wakeTick ≤ w.ticks then
    match removeFutexWaiterByTid w.queue w.current with
    | (true, queue) =>
      leave { w with queue, threads := threads.withThreadMut w.current (setFutexTimedOut false)
                     removal := mark w.removal [w.current] .timeout } true .timedOut
    | (false, _) =>
      let (out, threads) := takeFutexTimedOut threads w.current
      leave { w with threads } true (if out then .timedOut else .success)
  else goto { w with threads } (.again uaddr wakeTick)

/-- the timer interrupt, without the scheduler -/
def timer : World :=
  let now := saturatingAddU64 w.ticks 1
  let s := wakeDueFutexWaiters w.state now
  { w with ticks := w.ticks + 1, threads := s.threads, queue := s.queue
           removal := mark w.removal (takeDue w.queue now).1 .timeout }

def step : Op → World
  | .wait uaddr val timeout valid =>
    if w.points w.current = .outside then
      if uaddr = 0 ∨ valid = false then leave w false .fault
      else goto w (.started uaddr val (deadline w.ticks timeout))
    else w
  | .reset =>
    match w.points w.current with
    | .started uaddr val wakeTick =>
      goto { w with threads := w.threads.withThreadMut w.current (setFutexTimedOut false) } (.entering uaddr val wakeTick)
    | _ => w
  | .enqueue read =>
    match w.points w.current with
    | .entering uaddr val wakeTick => enqueueBlock w uaddr val wakeTick read
    | _ => w
  | .check =>
    match w.points w.current with
    | .waiting uaddr wakeTick => checkBlock w uaddr wakeTick
    | _ => w
  | .yield =>
    match w.points w.current with
    | .again uaddr wakeTick => switch (goto w (.waiting uaddr wakeTick))
    | _ => w
  | .wake uaddr val valid =>
    if w.points w.current = .outside then
      if uaddr = 0 ∨ valid = false ∨ min val.toNat maxFutexWaiters = 0 then w
      else
        let (l, queue) := takeWaiters w.queue uaddr (min val.toNat maxFutexWaiters)
        goto { w with queue, removal := mark w.removal l .wake } (.waking l false)
    else w
  | .wakeNext =>
    match w.points w.current with
    | .waking [] _ => goto w .outside
    | .waking (t :: l) false =>
      goto { w with threads := w.threads.withThreadMut t (setFutexTimedOut false) } (.waking (t :: l) true)
    | .waking (t :: l) true => goto { w with threads := wakeThread w.threads t } (.waking l false)
    | _ => w
  | .wakeThread tid => { w with threads := wakeThread w.threads tid }
  | .tick slice =>
    -- `scheduler_tick` lets no thread lose the CPU inside a system call
    if slice = true ∧ w.points w.current = .outside then switch (timer w) else timer w

/-! ## Specification -/

/-- the return value says what happened to the entry of this wait, and no entry is left behind -/
structure Truthful (r : Return) : Prop where
  left : r.left = false
  ends : r.queued = true → r.result = .success ∨ r.result = .timedOut
  success : r.queued = true → (r.result = .success ↔ r.removal = some .wake)
  timedOut : r.queued = true → (r.result = .timedOut ↔ r.removal = some .timeout)

/-- threads in the table, none of them in `futex`, and the queue empty -/
structure Started (w : World) : Prop where
  distinct : w.threads.Distinct
  current : ∃ t, w.threads.get w.current = some t
  queue : ∀ i, w.queue i = none
  points : ∀ tid, w.points tid = .outside
  returns : w.returns = []

/-! ## The invariant -/

/-- a waiting thread: still queued; or removed by FUTEX_WAKE, with the flag down; or by the timer, with the flag up -/
def Agrees (tid : ℕ) (uaddr : UInt64) : Prop :=
  (QueuedOn w.queue tid uaddr ∧ w.removal tid = none ∧ timedOut w.threads tid = some false) ∨
  (¬ Queued w.queue tid ∧ w.removal tid = some .wake ∧ timedOut w.threads tid = some false) ∨
  (¬ Queued w.queue tid ∧ w.removal tid = some .timeout ∧ timedOut w.threads tid = some true)

/-- what holds of a thread at a point -/
def Status (tid : ℕ) : Point → Prop
  | .outside | .started .. => ¬ Queued w.queue tid
  | .entering .. => ¬ Queued w.queue tid ∧ timedOut w.threads tid = some false
  | .waiting uaddr _ | .again uaddr _ => Agrees w tid uaddr
  -- FUTEX_WAKE has the CPU to its end
  | .waking l _ => ¬ Queued w.queue tid ∧ tid = w.current ∧ ∀ t ∈ l, w.removal t = some .wake

structure Inv (w : World) : Prop where
  oneEach : OneEach w.queue
  distinct : w.threads.Distinct
  current : ∃ b, timedOut w.threads w.current = some b
  status : ∀ tid, Status w tid (w.points tid)
  returns : ∀ r ∈ w.returns, Truthful r

/-- nothing about thread `tid` has changed -/
structure Same (w w' : World) (tid : ℕ) : Prop where
  queuedOn : ∀ uaddr, QueuedOn w'.queue tid uaddr ↔ QueuedOn w.queue tid uaddr
  removal : w'.removal tid = w.removal tid
  timedOut : timedOut w'.threads tid = timedOut w.threads tid

section Invariant

variable {w w' : World} {tid : ℕ}

theorem Same.queued (h : Same w w' tid) : Queued w'.queue tid ↔ Queued w.queue tid :=
  exists_congr h.queuedOn

variable {uaddr wakeTick : UInt64} {p : Point} {l : List ℕ} {q : Threads} {b : Bool}

theorem Same.agrees (h : Same w w' tid) (ha : Agrees w tid uaddr) : Agrees w' tid uaddr := by
  unfold Agrees
  rw [h.queuedOn, h.queued, h.removal, h.timedOut]
  exact ha

/-- outside FUTEX_WAKE the status of a thread depends on nothing else -/
theorem Same.status (h : Same w w' tid) (hp : ∀ l b, p ≠ .waking l b) (hs : Status w tid p) : Status w' tid p := by
  cases p with
  | outside => exact mt h.queued.1 hs
  | started => exact mt h.queued.1 hs
  | entering => exact ⟨mt h.queued.1 hs.1, h.timedOut.trans hs.2⟩
  | waiting => exact h.agrees hs
  | again => exact h.agrees hs
  | waking l b => exact absurd rfl (hp l b)

theorem Inv.status_of_eq (h : Inv w) (hp : w.points tid = p) : Status w tid p := hp ▸ h.status tid

/-- a thread that is queued waits, and its entry has not been removed -/
theorem Inv.waits_of_queued (h : Inv w) (hq : Queued w.queue tid) :
    ∃ uaddr wakeTick, (w.points tid = .waiting uaddr wakeTick ∨ w.points tid = .again uaddr wakeTick) ∧
      w.removal tid = none := by
  have hagrees : ∀ {uaddr}, Agrees w tid uaddr → w.removal tid = none := by
    rintro uaddr (⟨-, hr, -⟩ | ⟨hno, -⟩ | ⟨hno, -⟩)
    · exact hr
    · exact absurd hq hno
    · exact absurd hq hno
  cases hp : w.points tid with
  | outside => exact absurd hq (h.status_of_eq hp)
  | started => exact absurd hq (h.status_of_eq hp)
  | entering => exact absurd hq (h.status_of_eq hp).1
  | waiting uaddr wakeTick => exact ⟨uaddr, wakeTick, .inl rfl, hagrees (h.status_of_eq hp)⟩
  | again uaddr wakeTick => exact ⟨uaddr, wakeTick, .inr rfl, hagrees (h.status_of_eq hp)⟩
  | waking => exact absurd hq (h.status_of_eq hp).1

/-- when the current thread is not in FUTEX_WAKE, no thread is -/
theorem Inv.not_waking (h : Inv w) (hc : ∀ l b, w.points w.current ≠ .waking l b) (tid : ℕ) (l : List ℕ) (b : Bool) :
    w.points tid ≠ .waking l b := by
  intro hp
  obtain ⟨-, rfl, -⟩ := h.status_of_eq hp
  exact hc l b hp

/-- **Own step.** A step of the current thread outside FUTEX_WAKE that changes nothing about the others. -/
theorem inv_own (h : Inv w) (hc : ∀ l b, w.points w.current ≠ .waking l b)
    (hpoints : w'.points = update w.points w.current p) (hone : OneEach w'.queue)
    (hdist : w'.threads.Distinct) (hcur : ∃ b, timedOut w'.threads w'.current = some b)
    (hsame : ∀ tid, tid ≠ w.current → Same w w' tid) (hstatus : Status w' w.current p)
    (hret : ∀ r ∈ w'.returns, Truthful r) : Inv w' where
  oneEach := hone
  distinct := hdist
  current := hcur
  returns := hret
  status := by
    intro tid
    rw [hpoints, update_apply]
    split_ifs with ht
    · exact ht ▸ hstatus
    · exact (hsame tid ht).status (h.not_waking hc tid) (h.status tid)

section Removal

variable {cause : Removal} (hdrain : Drained w.queue w'.queue l) (hremoval : w'.removal = mark w.removal l cause)
  (hflag : ∀ t, t ∉ l → timedOut w'.threads t = timedOut w.threads t)
  (hflag' : ∀ t ∈ l, timedOut w.threads t = some false → timedOut w'.threads t = some (decide (cause = .timeout)))

include hdrain hremoval hflag hflag'

/-- **Removal step.** The threads of `l` leave the queue for one reason, and their flags agree with it. -/
theorem agrees_drained (ha : Agrees w tid uaddr) : Agrees w' tid uaddr := by
  by_cases ht : tid ∈ l
  · have hgone : ¬ Queued w'.queue tid := fun hq => (hdrain.queued_iff.1 hq).2 ht
    have hrem : w'.removal tid = some cause := by rw [hremoval, mark, if_pos ht]
    have hq := hdrain.queued tid ht
    rcases ha with ⟨-, -, hf⟩ | ⟨hno, -⟩ | ⟨hno, -⟩
    · have hf' := hflag' tid ht hf
      cases cause with
      | wake => exact .inr (.inl ⟨hgone, hrem, hf'⟩)
      | timeout => exact .inr (.inr ⟨hgone, hrem, hf'⟩)
    · exact absurd hq hno
    · exact absurd hq hno
  · have hsame : Same w w' tid := by
      refine ⟨fun u => ?_, ?_, hflag tid ht⟩
      · rw [hdrain.queuedOn]
        exact and_iff_left ht
      · rw [hremoval, mark, if_neg ht]
    exact hsame.agrees ha

theorem status_drained (hp : ∀ l b, p ≠ .waking l b) (hs : Status w tid p) : Status w' tid p := by
  have hstays : ¬ Queued w.queue tid → ¬ Queued w'.queue tid := fun hno hq => hno (hdrain.queued_iff.1 hq).1
  cases p with
  | outside => exact hstays hs
  | started => exact hstays hs
  | entering =>
    have hl : tid ∉ l := fun ht => hs.1 (hdrain.queued tid ht)
    exact ⟨hstays hs.1, (hflag tid hl).trans hs.2⟩
  | waiting => exact agrees_drained hdrain hremoval hflag hflag' hs
  | again => exact agrees_drained hdrain hremoval hflag hflag' hs
  | waking l b => exact absurd rfl (hp l b)

end Removal

/-- a thread that FUTEX_WAKE has removed is in no later removal -/
theorem Inv.not_drained (h : Inv w) {q : FutexQueue} (hdrain : Drained w.queue q l)
    (hr : w.removal tid = some .wake) : tid ∉ l := by
  intro ht
  obtain ⟨-, -, -, hnone⟩ := h.waits_of_queued (hdrain.queued tid ht)
  cases hr.symm.trans hnone

/-! ## Steps -/

theorem distinct_withThreadMut (hd : q.Distinct) {f : Thread → Thread} (hf : ∀ t, (f t).id = t.id)
    (id : ℕ) : (q.withThreadMut id f).Distinct :=
  hd.congr (withThreadMut_ids hf id)

theorem distinct_wakeAll (b : Bool) (l : List ℕ) (hd : q.Distinct) : (wakeAll b q l).Distinct := by
  induction l generalizing q with
  | nil => exact hd
  | cons t l ih =>
    apply ih
    exact distinct_withThreadMut (distinct_withThreadMut hd (f := setFutexTimedOut b) (fun _ => rfl) t) Thread.woken_id t

theorem inv_switch (h : Inv w) (hc : ∀ l b, w.points w.current ≠ .waking l b) : Inv (switch w) where
  oneEach := h.oneEach
  distinct := h.distinct.congr (schedule_ids w.threads (some w.current))
  returns := h.returns
  current := by
    show ∃ b, timedOut (schedule w.threads (some w.current)).2
      (((schedule w.threads (some w.current)).1).getD w.current) = some b
    cases hpick : (schedule w.threads (some w.current)).1 with
    | none =>
      obtain ⟨b, hb⟩ := h.current
      exact ⟨b, (timedOut_schedule (some w.current) w.current).trans hb⟩
    | some id =>
      obtain ⟨t, ht, -⟩ := schedule_pick h.distinct hpick
      exact ⟨t.futexTimedOut, by rw [Option.getD_some, timedOut, ht, Option.map_some]⟩
  status := by
    intro tid
    have hsame : Same w (switch w) tid := ⟨fun _ => .rfl, rfl, timedOut_schedule (some w.current) tid⟩
    exact hsame.status (h.not_waking hc tid) (h.status tid)

/-- what a queued wait returns agrees with how its entry was removed -/
def Fits (queued : Bool) (result : Result) (removal : Option Removal) : Prop :=
  queued = true → (result = .success ∧ removal = some .wake) ∨ (result = .timedOut ∧ removal = some .timeout)

theorem truthful_of_fits {r : Return} (hleft : r.left = false) (hfits : Fits r.queued r.result r.removal) :
    Truthful r where
  left := hleft
  ends := by
    intro hq
    rcases hfits hq with ⟨hr, -⟩ | ⟨hr, -⟩
    · exact .inl hr
    · exact .inr hr
  success := by
    intro hq
    rcases hfits hq with ⟨hr, hm⟩ | ⟨hr, hm⟩ <;> simp [hr, hm]
  timedOut := by
    intro hq
    rcases hfits hq with ⟨hr, hm⟩ | ⟨hr, hm⟩ <;> simp [hr, hm]

/-- **Return step.** The current thread leaves FUTEX_WAIT without an entry and with the right result. -/
theorem inv_leave (h : Inv w) (hc : ∀ l b, w.points w.current ≠ .waking l b) {threads : Threads} {queue : FutexQueue}
    {removal : ℕ → Option Removal} (hone : OneEach queue) (hdist : threads.Distinct)
    (hcur : ∃ b, timedOut threads w.current = some b)
    (hsame : ∀ tid, tid ≠ w.current → Same w { w with threads, queue, removal } tid)
    (hgone : ¬ Queued queue w.current) {queued : Bool} {result : Result}
    (hfits : Fits queued result (removal w.current)) :
    Inv (leave { w with threads, queue, removal } queued result) := by
  apply inv_own (p := .outside) h hc rfl hone hdist hcur
  · intro tid ht
    exact ⟨(hsame tid ht).queuedOn, (hsame tid ht).removal, (hsame tid ht).timedOut⟩
  · exact hgone
  · intro r hr
    rcases List.mem_append.1 hr with hr | hr
    · exact h.returns r hr
    · obtain rfl := List.mem_singleton.1 hr
      refine truthful_of_fits ?_ hfits
      show (SlotTable.firstSlot 0 maxFutexWaiters (fun e => e.tid = w.current) queue).isSome = false
      rw [firstSlot_tid_eq_none.2 hgone]
      rfl

theorem not_waking_of_eq (hp : w.points w.current = p) (hne : ∀ l b, p ≠ .waking l b) (l : List ℕ)
    (b : Bool) : w.points w.current ≠ .waking l b := by
  rw [hp]
  exact hne l b

/-- a refused FUTEX_WAIT -/
theorem inv_refuse (h : Inv w) (hc : ∀ l b, w.points w.current ≠ .waking l b) (hgone : ¬ Queued w.queue w.current)
    (result : Result) : Inv (leave w false result) :=
  inv_leave h hc h.oneEach h.distinct h.current (fun _ _ => ⟨fun _ => .rfl, rfl, rfl⟩) hgone nofun

theorem inv_enqueueBlock (h : Inv w) {val : UInt64}
    (hp : w.points w.current = .entering uaddr val wakeTick) (read : Option UInt32) :
    Inv (enqueueBlock w uaddr val wakeTick read) := by
  have hc := not_waking_of_eq hp nofun
  obtain ⟨hgone, hflag⟩ := h.status_of_eq hp
  unfold enqueueBlock
  cases read with
  | none => exact inv_refuse h hc hgone .fault
  | some x =>
    dsimp only
    split_ifs
    · exact inv_refuse h hc hgone .again
    · rcases hreg : registerFutexWaiter w.queue w.current uaddr wakeTick with ⟨_ | _, queue⟩
      · exact inv_refuse h hc hgone .again
      · obtain ⟨-, hone, hqueued⟩ := registered h.oneEach hreg
        have hflags : ∀ tid, timedOut (sleepThread w.threads w.current) tid = timedOut w.threads tid :=
          timedOut_sleepThread w.current
        apply inv_switch
        · apply inv_own (p := .waiting uaddr wakeTick) h hc rfl hone
          · exact distinct_withThreadMut h.distinct (f := Thread.setState .sleeping) (fun _ => rfl) w.current
          · exact ⟨false, (hflags w.current).trans hflag⟩
          · intro tid ht
            refine ⟨fun u => ?_, update_of_ne ht _ _, hflags tid⟩
            rw [show (goto _ _ : World).queue = queue from rfl, hqueued]
            exact or_iff_right fun hown => ht hown.1
          · exact .inl ⟨(hqueued _ _).2 (.inl ⟨rfl, rfl⟩), update_self .., (hflags w.current).trans hflag⟩
          · exact h.returns
        · intro l b
          simp [goto]

/-- the flag of the current thread is lowered; the other threads keep theirs -/
theorem timedOut_lowered (tid : ℕ) {id : ℕ} (hne : tid ≠ id) :
    timedOut (q.withThreadMut id (setFutexTimedOut false)) tid = timedOut q tid := by
  rw [timedOut_setFutexTimedOut, if_neg hne]

theorem timedOut_lowered_self {id : ℕ} (h : timedOut q id = some b) :
    timedOut (q.withThreadMut id (setFutexTimedOut false)) id = some false := by
  rw [timedOut_setFutexTimedOut, if_pos rfl, h, Option.map_some]

variable (h : Inv w)

include h

theorem inv_checkBlock (hp : w.points w.current = .waiting uaddr wakeTick) : Inv (checkBlock w uaddr wakeTick) := by
  have hc := not_waking_of_eq hp nofun
  have hs := h.status_of_eq hp
  obtain ⟨b, hb⟩ := h.current
  have hlow := timedOut_lowered_self hb
  have hdist : (w.threads.withThreadMut w.current (setFutexTimedOut false)).Distinct :=
    distinct_withThreadMut h.distinct (f := setFutexTimedOut false) (fun _ => rfl) w.current
  have hothers : ∀ tid, tid ≠ w.current →
      Same w { w with threads := w.threads.withThreadMut w.current (setFutexTimedOut false) } tid :=
    fun tid ht => ⟨fun _ => .rfl, rfl, timedOut_lowered tid ht⟩
  unfold checkBlock takeFutexTimedOut
  dsimp only
  rcases hs with ⟨hqueued, hrem, hflag⟩ | ⟨hgone, hrem, hflag⟩ | ⟨hgone, hrem, hflag⟩
  · -- still queued: only the deadline ends the wait, and then this turn removes the entry
    rw [hflag, Option.getD_some, if_neg Bool.false_ne_true, futexWaiterExists_iff.2 hqueued, Bool.not_true,
      if_neg Bool.false_ne_true]
    by_cases hdue : wakeTick ≠ noTimeoutWakeTick ∧ wakeTick ≤ w.ticks
    · rw [if_pos hdue]
      rcases hremove : removeFutexWaiterByTid w.queue w.current with ⟨_ | _, queue⟩
      · exact absurd ⟨uaddr, hqueued⟩ (removeFutexWaiterByTid_false (by rw [hremove]))
      · have hdrain := drained_removeFutexWaiterByTid h.oneEach hremove
        apply inv_leave h hc (hdrain.oneEach h.oneEach)
        · exact distinct_withThreadMut hdist (f := setFutexTimedOut false) (fun _ => rfl) w.current
        · exact ⟨false, timedOut_lowered_self hlow⟩
        · intro tid ht
          have hnot : tid ∉ [w.current] := by simpa using ht
          refine ⟨fun u => ?_, if_neg hnot, (timedOut_lowered tid ht).trans (timedOut_lowered tid ht)⟩
          exact hdrain.queuedOn.trans (and_iff_left hnot)
        · intro hq
          exact (hdrain.queued_iff.1 hq).2 (List.mem_singleton_self _)
        · intro _
          exact .inr ⟨rfl, if_pos (List.mem_singleton_self _)⟩
    · rw [if_neg hdue]
      refine inv_own (p := .again uaddr wakeTick) h hc rfl h.oneEach hdist ⟨false, hlow⟩ ?_ ?_ h.returns
      · intro tid ht
        exact ⟨(hothers tid ht).queuedOn, (hothers tid ht).removal, (hothers tid ht).timedOut⟩
      · exact .inl ⟨hqueued, hrem, hlow⟩
  · have hno : futexWaiterExists w.queue w.current uaddr = false :=
      Bool.eq_false_iff.2 fun hex => hgone ⟨uaddr, futexWaiterExists_iff.1 hex⟩
    rw [hflag, Option.getD_some, if_neg Bool.false_ne_true, hno, Bool.not_false, if_pos rfl]
    exact inv_leave h hc h.oneEach hdist ⟨false, hlow⟩ hothers hgone fun _ => .inl ⟨rfl, hrem⟩
  · rw [hflag, Option.getD_some, if_pos rfl]
    exact inv_leave h hc h.oneEach hdist ⟨false, hlow⟩ hothers hgone fun _ => .inr ⟨rfl, hrem⟩

theorem inv_timer : Inv (timer w) := by
  have hdrain := drained_takeDue h.oneEach (saturatingAddU64 w.ticks 1)
  have hflags : ∀ tid, timedOut (timer w).threads tid =
      if tid ∈ (takeDue w.queue (saturatingAddU64 w.ticks 1)).1 then (timedOut w.threads tid).map fun _ => true
      else timedOut w.threads tid :=
    timedOut_wakeAll true (takeDue w.queue (saturatingAddU64 w.ticks 1)).1
  refine ⟨hdrain.oneEach h.oneEach, distinct_wakeAll true _ h.distinct, ?_, ?_, h.returns⟩
  · obtain ⟨b, hb⟩ := h.current
    show ∃ b, timedOut (timer w).threads w.current = some b
    rw [hflags]
    split_ifs
    · exact ⟨true, by rw [hb, Option.map_some]⟩
    · exact ⟨b, hb⟩
  · intro tid
    have hs := h.status tid
    show Status (timer w) tid (w.points tid)
    by_cases hp : ∃ l b, w.points tid = .waking l b
    · obtain ⟨l, b, hp⟩ := hp
      rw [hp] at hs ⊢
      obtain ⟨hno, hcur, hwoken⟩ := hs
      refine ⟨fun hq => hno (hdrain.queued_iff.1 hq).1, hcur, ?_⟩
      intro t ht
      show mark w.removal _ .timeout t = some .wake
      rw [mark, if_neg (h.not_drained hdrain (hwoken t ht))]
      exact hwoken t ht
    · apply status_drained (w := w) hdrain rfl _ _ _ hs
      · intro t ht
        rw [hflags, if_neg ht]
      · intro t ht hf
        rw [hflags, if_pos ht, hf]
        rfl
      · intro l b heq
        exact hp ⟨l, b, heq⟩

/-- the current thread goes on to a point where its status allows it to be -/
theorem inv_goto (hs : Status w w.current p) : Inv (goto w p) := by
  refine ⟨h.oneEach, h.distinct, h.current, fun tid => ?_, h.returns⟩
  show Status w tid (update w.points w.current p tid)
  rw [update_apply]
  split_ifs with ht
  · exact ht ▸ hs
  · exact h.status tid

theorem inv_reset {val : UInt64} (hp : w.points w.current = .started uaddr val wakeTick) :
    Inv (goto { w with threads := w.threads.withThreadMut w.current (setFutexTimedOut false) }
      (.entering uaddr val wakeTick)) := by
  have hs := h.status_of_eq hp
  obtain ⟨b, hb⟩ := h.current
  have hlow := timedOut_lowered_self hb
  have hdist := distinct_withThreadMut h.distinct (f := setFutexTimedOut false) (fun _ => rfl) w.current
  refine inv_own (p := .entering uaddr val wakeTick) h (not_waking_of_eq hp nofun) rfl h.oneEach hdist ⟨false, hlow⟩ ?_
    ⟨hs, hlow⟩ h.returns
  intro tid ht
  exact ⟨fun _ => .rfl, rfl, timedOut_lowered tid ht⟩

/-- the locked part of FUTEX_WAKE -/
theorem inv_wake (hp : w.points w.current = .outside) (uaddr : UInt64) (maxWake : ℕ) :
    Inv (goto { w with queue := (takeWaiters w.queue uaddr maxWake).2
                       removal := mark w.removal (takeWaiters w.queue uaddr maxWake).1 .wake }
      (.waking (takeWaiters w.queue uaddr maxWake).1 false)) := by
  have hc := not_waking_of_eq hp nofun
  have hs := h.status_of_eq hp
  have hdrain := drained_takeWaiters h.oneEach uaddr maxWake
  refine ⟨hdrain.oneEach h.oneEach, h.distinct, h.current, ?_, h.returns⟩
  intro tid
  show Status _ tid (update w.points w.current _ tid)
  by_cases ht : tid = w.current
  · rw [ht, update_self]
    exact ⟨fun hq => hs (hdrain.queued_iff.1 hq).1, rfl, fun t hmem => if_pos hmem⟩
  · rw [update_of_ne ht]
    apply status_drained (w := w) hdrain
    · show mark w.removal _ .wake = mark w.removal _ _
      rfl
    · intro t _
      rfl
    · intro t _ hf
      exact hf
    · exact h.not_waking hc tid
    · exact h.status tid

/-- a change of flags and states that leaves every thread's flag, or lowers it for threads FUTEX_WAKE has removed -/
theorem inv_threads {threads : Threads} (hdist : threads.Distinct)
    (hflag : ∀ tid, timedOut threads tid = timedOut w.threads tid ∨
      w.removal tid = some .wake ∧ timedOut threads tid = (timedOut w.threads tid).map fun _ => false) :
    Inv { w with threads } where
  oneEach := h.oneEach
  distinct := hdist
  returns := h.returns
  current := by
    obtain ⟨b, hb⟩ := h.current
    rcases hflag w.current with heq | ⟨-, heq⟩
    · exact ⟨b, heq.trans hb⟩
    · exact ⟨false, by rw [heq, hb, Option.map_some]⟩
  status := by
    intro tid
    have hs := h.status tid
    have hlow : timedOut w.threads tid = some false → timedOut threads tid = some false := by
      intro hf
      rcases hflag tid with heq | ⟨-, heq⟩
      · exact heq.trans hf
      · rw [heq, hf, Option.map_some]
    have hagrees : ∀ uaddr, Agrees w tid uaddr → Agrees { w with threads } tid uaddr := by
      rintro uaddr (⟨hq, hr, hf⟩ | ⟨hq, hr, hf⟩ | ⟨hq, hr, hf⟩)
      · exact .inl ⟨hq, hr, hlow hf⟩
      · exact .inr (.inl ⟨hq, hr, hlow hf⟩)
      · rcases hflag tid with heq | ⟨hwake, -⟩
        · exact .inr (.inr ⟨hq, hr, heq.trans hf⟩)
        · cases hr.symm.trans hwake
    show Status { w with threads } tid (w.points tid)
    generalize w.points tid = r at hs ⊢
    cases r with
    | outside => exact hs
    | started => exact hs
    | entering => exact ⟨hs.1, hlow hs.2⟩
    | waiting uaddr _ => exact hagrees uaddr hs
    | again uaddr _ => exact hagrees uaddr hs
    | waking => exact hs

/-- FUTEX_WAKE goes on with a shorter list -/
theorem inv_waking {l' : List ℕ} (hp : w.points w.current = .waking l b)
    (hsub : ∀ t ∈ l', t ∈ l) (b' : Bool) : Inv (goto w (.waking l' b')) := by
  obtain ⟨hno, hcur, hwoken⟩ := h.status_of_eq hp
  exact inv_goto h ⟨hno, hcur, fun t hmem => hwoken t (hsub t hmem)⟩

theorem inv_wakeThread (tid : ℕ) : Inv { w with threads := wakeThread w.threads tid } :=
  inv_threads h (distinct_withThreadMut h.distinct Thread.woken_id tid) fun t => .inl (timedOut_wakeThread tid t)

theorem inv_wakeNext : Inv (step w .wakeNext) := by
  rw [step]
  split
  · rename_i b hp
    exact inv_goto h (h.status_of_eq hp).1
  · -- the flag of a thread that FUTEX_WAKE removed is down already
    rename_i t l hp
    have hs := h.status_of_eq hp
    have hwake := hs.2.2 t List.mem_cons_self
    have hlow : Inv { w with threads := w.threads.withThreadMut t (setFutexTimedOut false) } := by
      apply inv_threads h (distinct_withThreadMut h.distinct (f := setFutexTimedOut false) (fun _ => rfl) t)
      intro tid
      rw [timedOut_setFutexTimedOut]
      split_ifs with ht
      · exact .inr ⟨ht ▸ hwake, rfl⟩
      · exact .inl rfl
    exact inv_waking hlow hp (fun _ hmem => hmem) true
  · rename_i t l hp
    exact inv_waking (inv_wakeThread h t) hp (fun _ hmem => List.mem_cons_of_mem t hmem) false
  · exact h

omit h

theorem inv_step (w : World) (op : Op) (h : Inv w) : Inv (step w op) := by
  cases op with
  | wait uaddr val timeout valid =>
    rw [step]
    split_ifs with hp
    · exact inv_refuse h (not_waking_of_eq hp nofun) (h.status_of_eq hp) .fault
    · have hs := h.status_of_eq hp
      exact inv_goto h hs
    · exact h
  | reset =>
    rw [step]
    split
    · rename_i hp
      exact inv_reset h hp
    · exact h
  | enqueue read =>
    rw [step]
    split
    · rename_i hp
      exact inv_enqueueBlock h hp read
    · exact h
  | check =>
    rw [step]
    split
    · rename_i hp
      exact inv_checkBlock h hp
    · exact h
  | yield =>
    rw [step]
    split
    · rename_i uaddr wakeTick hp
      have hs := h.status_of_eq hp
      apply inv_switch (inv_goto (p := .waiting uaddr wakeTick) h hs)
      intro l b
      simp [goto]
    · exact h
  | wake uaddr val valid =>
    rw [step]
    split_ifs with hp
    · exact h
    · exact inv_wake h hp uaddr _
    · exact h
  | wakeNext => exact inv_wakeNext h
  | wakeThread tid => exact inv_wakeThread h tid
  | tick slice =>
    rw [step]
    split_ifs with hs
    · exact inv_switch (inv_timer h) (not_waking_of_eq (w := timer w) hs.2 nofun)
    · exact inv_timer h

theorem Started.inv (h : Started w) : Inv w where
  oneEach := by
    intro i j a b _ _ ha
    rw [h.queue i] at ha
    cases ha
  distinct := h.distinct
  current := by
    obtain ⟨t, ht⟩ := h.current
    exact ⟨t.futexTimedOut, by rw [timedOut, ht, Option.map_some]⟩
  status := by
    intro tid
    rw [h.points tid]
    rintro ⟨uaddr, i, -, e, he, -⟩
    rw [h.queue i] at he
    cases he
  returns := by simp [h.returns]

end Invariant

/-! ## Outcomes -/

/-- **Futex wait outcome.** However calls, timer interrupts and other wake-ups interleave, no thread has two entries, a
queued FUTEX_WAIT returns SUCCESS if and only if FUTEX_WAKE removed the entry of this wait and ETIMEDOUT if and only if
the timeout did, and on return no entry of the caller is left. -/
theorem wait_outcomes {w : World} (h : Started w) (ops : List Op) :
    OneEach (run step w ops).queue ∧ ∀ r ∈ (run step w ops).returns, Truthful r :=
  have hinv := inv_run inv_step w ops h.inv
  ⟨hinv.oneEach, hinv.returns⟩

/-- thread 1 of process 1 and thread 2 of process `p` -/
def pair (p : ℕ) : World where
  threads := ⟨fun
    | 0 => some ⟨1, 1, .running, false, false⟩
    | 1 => some ⟨2, p, .ready, false, false⟩
    | _ => none, 2⟩
  queue _ := none
  ticks := 0
  current := 1
  points _ := .outside
  removal _ := none
  returns := []

theorem pair_started (p : ℕ) : Started (pair p) := by
  have hslots : ∀ {i t}, (pair p).threads.slots i = some t → t.id = i + 1 := by
    intro i t ht
    rcases i with _ | _ | i <;> cases ht <;> rfl
  refine ⟨?_, ⟨⟨1, 1, .running, false, false⟩, rfl⟩, fun _ => rfl, fun _ => rfl, rfl⟩
  intro i j t u _ _ ht hu hid
  have := hslots ht
  have := hslots hu
  omega

/-- thread 1 waits without a timeout and is woken by thread 2, which then waits for one tick -/
def wokenAndTimedOut : List Op :=
  [.wait 0x1000 5 0 true, .reset, .enqueue (some 5),
    .wake 0x1000 1 true, .wakeNext, .wakeNext, .wakeNext, .wait 0x2000 0 1 true, .reset, .enqueue (some 0),
    .check, .tick true, .check]

theorem outcomes_of_wokenAndTimedOut :
    (run step (pair 2) wokenAndTimedOut).returns =
      [⟨1, .success, true, some .wake, false⟩, ⟨2, .timedOut, true, some .timeout, false⟩] ∧
    OneEach (run step (pair 2) wokenAndTimedOut).queue ∧
    ∀ r ∈ (run step (pair 2) wokenAndTimedOut).returns, Truthful r :=
  ⟨by decide +kernel, wait_outcomes (pair_started 2) wokenAndTimedOut⟩

end SwiftCore.Syscall.FutexWait
