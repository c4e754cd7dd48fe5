/-
Lean model of the futex queue (core/syscall/process.rs: FUTEX_WAIT_QUEUE and the functions on it). One queue of
`maxFutexWaiters` slots serves every process; an entry holds the waiting thread, the address and the tick at which the
wait times out.

Seen from outside the queue is a map from threads to the address each waits on (`QueuedOn`), and `OneEach` says that it is
one. `Drained q q' l` is what every removal does: the threads of `l` leave, all others stay.
- `registered`: a registration adds one thread that was not queued.
- `drained_takeDue`, `drained_takeWaiters`, `drained_removeFutexWaiterByTid`: the three removals.
- `timedOut_wakeAll`: the flags after the loop that wakes the threads that left.
-/
import SwiftCore.Task.Scheduler

namespace SwiftCore.Syscall.Futex

open SwiftCore.Task SwiftCore.Task.Threads Function

/-! ## Model -/

structure FutexWaitEntry where
  tid : ℕ
  uaddr : UInt64
  wakeTick : UInt64
deriving DecidableEq, Repr

def maxFutexWaiters : ℕ := maxThreads

def noTimeoutWakeTick : UInt64 := 0xffffffffffffffff

/-- `FUTEX_WAIT_QUEUE` -/
abbrev FutexQueue := ℕ → Option FutexWaitEntry

variable (q : FutexQueue)

def registerFutexWaiter (tid : ℕ) (uaddr wakeTick : UInt64) : Bool × FutexQueue :=
  match SlotTable.firstSlot 0 maxFutexWaiters (fun e => e.tid = tid) q with
  | some _ => (false, q)
  | none =>
    match SlotTable.firstFree 0 maxFutexWaiters q with
    | none => (false, q)
    | some i => (true, update q i (some ⟨tid, uaddr, wakeTick⟩))

def futexWaiterExists (tid : ℕ) (uaddr : UInt64) : Bool :=
  (SlotTable.firstSlot 0 maxFutexWaiters (fun e => e.tid = tid ∧ e.uaddr = uaddr) q).isSome

def removeFutexWaiterByTid (tid : ℕ) : Bool × FutexQueue :=
  match SlotTable.firstSlot 0 maxFutexWaiters (fun e => e.tid = tid) q with
  | none => (false, q)
  | some i => (true, update q i none)

/-- the wait has a deadline and it has come -/
def FutexWaitEntry.due (now : UInt64) (e : FutexWaitEntry) : Bool :=
  e.wakeTick ≠ noTimeoutWakeTick ∧ e.wakeTick ≤ now

/-- the locked part of `wake_due_futex_waiters`; its list has room for every entry of the queue -/
def takeDue (now : UInt64) : List ℕ × FutexQueue :=
  ((SlotTable.select 0 maxFutexWaiters (fun i => (q i).any (FutexWaitEntry.due now)) q).map FutexWaitEntry.tid,
    SlotTable.clear (fun i => (q i).any (FutexWaitEntry.due now)) q)

/-- the locked part of FUTEX_WAKE -/
def takeWaiters (uaddr : UInt64) (maxWake : ℕ) : List ℕ × FutexQueue :=
  let (entries, q') :=
    SlotTable.takeFirst (fun e => e.uaddr = uaddr) (List.range' 0 (maxFutexWaiters - 0)) maxWake q
  (entries.map FutexWaitEntry.tid, q')

def setFutexTimedOut (timedOut : Bool) (t : Thread) : Thread := { t with futexTimedOut := timedOut }

/-- the loops that wake the threads of a list, with the flag each of them sets first -/
def wakeAll (timedOut : Bool) (threads : Threads) (l : List ℕ) : Threads :=
  l.foldl (fun q tid => wakeThread (q.withThreadMut tid (setFutexTimedOut timedOut)) tid) threads

/-- what futexes use of the kernel's state -/
structure State where
  threads : Threads
  queue : FutexQueue

def wakeDueFutexWaiters (s : State) (now : UInt64) : State :=
  let (l, queue) := takeDue s.queue now
  ⟨wakeAll true s.threads l, queue⟩

/-- FUTEX_WAKE behind the checks of `uaddr`: the number of threads woken -/
def futexWake (s : State) (uaddr val : UInt64) : ℕ × State :=
  let maxWake := min val.toNat maxFutexWaiters
  if maxWake = 0 then (0, s)
  else
    let (l, queue) := takeWaiters s.queue uaddr maxWake
    (l.length, ⟨wakeAll false s.threads l, queue⟩)

/-! ## The queue as a map from threads to addresses -/

section Queue

variable {q q' : FutexQueue} {l : List ℕ}

/-- no thread has two entries -/
def OneEach (q : FutexQueue) : Prop :=
  ∀ ⦃i j a b⦄, i < maxFutexWaiters → j < maxFutexWaiters → q i = some a → q j = some b → a.tid = b.tid → i = j

/-- thread `tid` waits on `uaddr` -/
def QueuedOn (q : FutexQueue) (tid : ℕ) (uaddr : UInt64) : Prop :=
  ∃ i, i < maxFutexWaiters ∧ ∃ e, q i = some e ∧ e.tid = tid ∧ e.uaddr = uaddr

/-- thread `tid` waits -/
def Queued (q : FutexQueue) (tid : ℕ) : Prop := ∃ uaddr, QueuedOn q tid uaddr

theorem queued_of_slot {i : ℕ} {e : FutexWaitEntry} (hi : i < maxFutexWaiters) (he : q i = some e) : Queued q e.tid :=
  ⟨e.uaddr, i, hi, e, he, rfl, rfl⟩

variable {tid : ℕ} {uaddr : UInt64}

theorem futexWaiterExists_iff : futexWaiterExists q tid uaddr = true ↔ QueuedOn q tid uaddr := by
  unfold futexWaiterExists
  constructor
  · intro h
    obtain ⟨i, hi⟩ := Option.isSome_iff_exists.1 h
    obtain ⟨-, hlt, e, he, hp⟩ := SlotTable.firstSlot_some hi
    simp only [decide_eq_true_eq] at hp
    exact ⟨i, hlt, e, he, hp.1, hp.2⟩
  · rintro ⟨i, hlt, e, he, htid, huaddr⟩
    rw [Option.isSome_iff_ne_none]
    intro hnone
    have := SlotTable.firstSlot_eq_none.1 hnone i e (Nat.zero_le i) hlt he
    simp [htid, huaddr] at this

theorem firstSlot_tid_eq_none :
    SlotTable.firstSlot 0 maxFutexWaiters (fun e => e.tid = tid) q = none ↔ ¬ Queued q tid := by
  rw [SlotTable.firstSlot_eq_none]
  constructor
  · rintro h ⟨uaddr, i, hi, e, he, htid, -⟩
    have := h i e (Nat.zero_le i) hi he
    simp [htid] at this
  · intro h i e _ hi he
    simp only [decide_eq_false_iff_not]
    rintro rfl
    exact h (queued_of_slot hi he)

/-- **Registration.** The thread was not queued and is now, on `uaddr`; nothing else changes. -/
theorem registered {wakeTick : UInt64} (hone : OneEach q)
    (h : registerFutexWaiter q tid uaddr wakeTick = (true, q')) :
    ¬ Queued q tid ∧ OneEach q' ∧ ∀ t a, QueuedOn q' t a ↔ (t = tid ∧ a = uaddr) ∨ QueuedOn q t a := by
  unfold registerFutexWaiter at h
  cases hown : SlotTable.firstSlot 0 maxFutexWaiters (fun e => e.tid = tid) q with
  | some i => simp [hown] at h
  | none =>
    have hnot := firstSlot_tid_eq_none.1 hown
    cases hfree : SlotTable.firstFree 0 maxFutexWaiters q with
    | none => simp [hown, hfree] at h
    | some i =>
      obtain ⟨-, hi, hempty⟩ := SlotTable.firstFree_some hfree
      simp only [hown, hfree, Prod.mk.injEq, true_and] at h
      subst h
      have hnew : ∀ {j e}, update q i (some ⟨tid, uaddr, wakeTick⟩) j = some e →
          (j = i ∧ e = ⟨tid, uaddr, wakeTick⟩) ∨ (j ≠ i ∧ q j = some e) := by
        intro j e he
        rw [update_apply] at he
        split_ifs at he with hj
        · exact .inl ⟨hj, (Option.some.inj he).symm⟩
        · exact .inr ⟨hj, he⟩
      refine ⟨hnot, ?_, ?_⟩
      · intro j k a b hj hk ha hb hab
        rcases hnew ha with ⟨hji, rfl⟩ | ⟨-, hold⟩ <;> rcases hnew hb with ⟨hki, rfl⟩ | ⟨-, hold'⟩
        · rw [hji, hki]
        · have hown : tid = b.tid := hab
          exact absurd (hown ▸ queued_of_slot hk hold') hnot
        · have hown : a.tid = tid := hab
          exact absurd (hown ▸ queued_of_slot hj hold) hnot
        · exact hone hj hk hold hold' hab
      · intro t a
        constructor
        · rintro ⟨j, hj, e, he, ht, hu⟩
          rcases hnew he with ⟨rfl, rfl⟩ | ⟨-, he⟩
          · exact .inl ⟨ht.symm, hu.symm⟩
          · exact .inr ⟨j, hj, e, he, ht, hu⟩
        · rintro (⟨rfl, rfl⟩ | ⟨j, hj, e, he, ht, hu⟩)
          · exact ⟨i, hi, _, update_self .., rfl, rfl⟩
          · have hne : j ≠ i := by
              rintro rfl
              cases hempty.symm.trans he
            exact ⟨j, hj, e, by rw [update_of_ne hne, he], ht, hu⟩

/-- the threads of `l` leave the queue, which they were in, and all others stay -/
structure Drained (q q' : FutexQueue) (l : List ℕ) : Prop where
  slots : ∀ ⦃i e⦄, i < maxFutexWaiters → (q' i = some e ↔ q i = some e ∧ e.tid ∉ l)
  queued : ∀ t ∈ l, Queued q t

theorem Drained.queuedOn (h : Drained q q' l) : QueuedOn q' tid uaddr ↔ QueuedOn q tid uaddr ∧ tid ∉ l := by
  constructor
  · rintro ⟨i, hi, e, he, rfl, hu⟩
    obtain ⟨he, hl⟩ := (h.slots hi).1 he
    exact ⟨⟨i, hi, e, he, rfl, hu⟩, hl⟩
  · rintro ⟨⟨i, hi, e, he, rfl, hu⟩, hl⟩
    exact ⟨i, hi, e, (h.slots hi).2 ⟨he, hl⟩, rfl, hu⟩

theorem Drained.queued_iff (h : Drained q q' l) : Queued q' tid ↔ Queued q tid ∧ tid ∉ l := by
  constructor
  · rintro ⟨uaddr, hq⟩
    exact ⟨⟨uaddr, (h.queuedOn.1 hq).1⟩, (h.queuedOn.1 hq).2⟩
  · rintro ⟨⟨uaddr, hq⟩, hl⟩
    exact ⟨uaddr, h.queuedOn.2 ⟨hq, hl⟩⟩

theorem Drained.oneEach (h : Drained q q' l) (hone : OneEach q) : OneEach q' := by
  intro i j a b hi hj ha hb hab
  exact hone hi hj ((h.slots hi).1 ha).1 ((h.slots hj).1 hb).1 hab

/-- emptying slots drains the threads that have their entries there -/
theorem drained_clear (hone : OneEach q) {p : ℕ → Bool}
    (hl : ∀ t, t ∈ l ↔ ∃ i, i < maxFutexWaiters ∧ p i = true ∧ ∃ e, q i = some e ∧ e.tid = t) :
    Drained q (SlotTable.clear p q) l := by
  constructor
  · intro i e hi
    have hclear : SlotTable.clear p q i = some e ↔ q i = some e ∧ p i = false := by
      cases hp : p i <;> simp [SlotTable.clear, hp]
    rw [hclear, hl]
    constructor
    · rintro ⟨he, hp⟩
      refine ⟨he, ?_⟩
      rintro ⟨j, hj, hpj, e', he', htid⟩
      -- the thread's only entry is in slot `i`, which is not emptied
      obtain rfl := hone hj hi he' he htid
      cases hp.symm.trans hpj
    · rintro ⟨he, hno⟩
      refine ⟨he, ?_⟩
      by_contra hp
      exact hno ⟨i, hi, by simpa using hp, e, he, rfl⟩
  · intro t ht
    obtain ⟨i, hi, -, e, he, rfl⟩ := (hl t).1 ht
    exact queued_of_slot hi he

theorem drained_takeDue (hone : OneEach q) (now : UInt64) : Drained q (takeDue q now).2 (takeDue q now).1 := by
  apply drained_clear hone
  intro t
  simp only [takeDue, List.mem_map, SlotTable.mem_select_iff]
  constructor
  · rintro ⟨e, ⟨i, -, hi, hp, he⟩, rfl⟩
    exact ⟨i, hi, hp, e, he, rfl⟩
  · rintro ⟨i, hi, hp, e, he, rfl⟩
    exact ⟨e, ⟨i, Nat.zero_le i, hi, hp, he⟩, rfl⟩

/-- the slots that FUTEX_WAKE empties -/
def takenSlots (q : FutexQueue) (uaddr : UInt64) (maxWake : ℕ) : List ℕ :=
  SlotTable.taken (fun e => e.uaddr = uaddr) (List.range' 0 (maxFutexWaiters - 0)) maxWake q

theorem takeWaiters_eq (q : FutexQueue) (uaddr : UInt64) (maxWake : ℕ) :
    takeWaiters q uaddr maxWake = (((takenSlots q uaddr maxWake).filterMap q).map FutexWaitEntry.tid,
      SlotTable.clear (fun i => i ∈ takenSlots q uaddr maxWake) q) := by
  unfold takeWaiters takenSlots
  rw [SlotTable.takeFirst_eq _ _ List.nodup_range']

theorem mem_takeWaiters {maxWake t : ℕ} :
    t ∈ (takeWaiters q uaddr maxWake).1 ↔
      ∃ i, i < maxFutexWaiters ∧ decide (i ∈ takenSlots q uaddr maxWake) = true ∧ ∃ e, q i = some e ∧ e.tid = t := by
  simp only [takeWaiters_eq, List.mem_map, List.mem_filterMap, decide_eq_true_eq]
  constructor
  · rintro ⟨e, ⟨i, hi, he⟩, rfl⟩
    exact ⟨i, (SlotTable.mem_taken.1 hi).2.1, hi, e, he, rfl⟩
  · rintro ⟨i, -, hi, e, he, rfl⟩
    exact ⟨e, ⟨i, hi, he⟩, rfl⟩

theorem drained_takeWaiters (hone : OneEach q) (uaddr : UInt64) (maxWake : ℕ) :
    Drained q (takeWaiters q uaddr maxWake).2 (takeWaiters q uaddr maxWake).1 := by
  have hq : (takeWaiters q uaddr maxWake).2 = SlotTable.clear (fun i => i ∈ takenSlots q uaddr maxWake) q := by
    rw [takeWaiters_eq]
  rw [hq]
  exact drained_clear hone fun t => mem_takeWaiters

theorem drained_removeFutexWaiterByTid (hone : OneEach q)
    (h : removeFutexWaiterByTid q tid = (true, q')) : Drained q q' [tid] := by
  unfold removeFutexWaiterByTid at h
  cases hi : SlotTable.firstSlot 0 maxFutexWaiters (fun e => e.tid = tid) q with
  | none => simp [hi] at h
  | some i =>
    obtain ⟨-, hlt, e, he, hp⟩ := SlotTable.firstSlot_some hi
    have htid : e.tid = tid := by simpa using hp
    simp only [hi, Prod.mk.injEq, true_and] at h
    have hclear : q' = SlotTable.clear (fun j => j = i) q := by
      funext j
      by_cases hj : j = i <;> simp [← h, SlotTable.clear, hj]
    rw [hclear]
    apply drained_clear hone
    intro t
    simp only [List.mem_singleton, decide_eq_true_eq]
    constructor
    · rintro rfl
      exact ⟨i, hlt, rfl, e, he, htid⟩
    · rintro ⟨j, -, rfl, e', he', rfl⟩
      rw [he] at he'
      exact (Option.some.inj he') ▸ htid

theorem removeFutexWaiterByTid_false (h : (removeFutexWaiterByTid q tid).1 = false) : ¬ Queued q tid := by
  unfold removeFutexWaiterByTid at h
  rw [← firstSlot_tid_eq_none]
  cases hi : SlotTable.firstSlot 0 maxFutexWaiters (fun e => e.tid = tid) q with
  | none => rfl
  | some i => simp [hi] at h

end Queue

/-! ## The flags -/

section Flags

variable {q : Threads}

/-- `futex_timed_out` of a thread -/
def timedOut (q : Threads) (tid : ℕ) : Option Bool := (q.get tid).map Thread.futexTimedOut

theorem timedOut_withThreadMut {f : Thread → Thread} (hid : ∀ t, (f t).id = t.id)
    (hflag : ∀ t, (f t).futexTimedOut = t.futexTimedOut) (id tid : ℕ) :
    timedOut (q.withThreadMut id f) tid = timedOut q tid := by
  unfold timedOut
  rw [get_withThreadMut hid]
  split_ifs
  · cases q.get tid with
    | none => rfl
    | some t => exact congrArg some (hflag t)
  · rfl

theorem timedOut_setFutexTimedOut (b : Bool) (id tid : ℕ) :
    timedOut (q.withThreadMut id (setFutexTimedOut b)) tid =
      if tid = id then (timedOut q tid).map fun _ => b else timedOut q tid := by
  unfold timedOut
  rw [get_withThreadMut (f := setFutexTimedOut b) (fun _ => rfl)]
  split_ifs
  · cases q.get tid <;> rfl
  · rfl

theorem woken_futexTimedOut (t : Thread) : t.woken.futexTimedOut = t.futexTimedOut := by
  unfold Thread.woken
  cases t.state <;> rfl

theorem timedOut_wakeThread (id tid : ℕ) : timedOut (wakeThread q id) tid = timedOut q tid :=
  timedOut_withThreadMut Thread.woken_id woken_futexTimedOut id tid

theorem timedOut_sleepThread (id tid : ℕ) : timedOut (sleepThread q id) tid = timedOut q tid :=
  timedOut_withThreadMut (f := Thread.setState .sleeping) (fun _ => rfl) (fun _ => rfl) id tid

theorem timedOut_schedule (current : Option ℕ) (tid : ℕ) :
    timedOut (schedule q current).2 tid = timedOut q tid := by
  cases hget : q.get tid with
  | some t =>
    obtain ⟨u, hu, hturn⟩ := get_schedule current hget
    rw [timedOut, timedOut, hu, hget, Option.map_some, Option.map_some, hturn.futexTimedOut]
  | none =>
    have hnone : (schedule q current).2.get tid = none := by
      cases hu : (schedule q current).2.get tid with
      | none => rfl
      | some u =>
        -- the slots of both tables hold the same ids
        obtain ⟨i, hi, -, hslot, -⟩ := get_some hu
        rw [slotIndex_congr (schedule_ids q current)] at hi
        obtain ⟨-, t, ht, -⟩ := slotIndex_some hi
        have : q.get tid = some t := by rw [Threads.get, hi]; exact ht
        cases hget.symm.trans this
    rw [timedOut, timedOut, hnone, hget]

/-- **Flags of the woken.** The loop sets the flag of the threads of the list and of no other. -/
theorem timedOut_wakeAll (b : Bool) (l : List ℕ) (tid : ℕ) :
    timedOut (wakeAll b q l) tid = if tid ∈ l then (timedOut q tid).map fun _ => b else timedOut q tid := by
  induction l generalizing q with
  | nil => rfl
  | cons t l ih =>
    rw [wakeAll, List.foldl_cons, ← wakeAll, ih, timedOut_wakeThread, timedOut_setFutexTimedOut]
    by_cases ht : tid = t
    · cases timedOut q tid <;> simp [ht]
    · simp [ht]

end Flags

end SwiftCore.Syscall.Futex
