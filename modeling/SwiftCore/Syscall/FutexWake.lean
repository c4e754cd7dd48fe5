/-
Whom a FUTEX_WAKE wakes (core/syscall/process.rs: futex).

The queue is shared by all processes and FUTEX_WAKE compares virtual addresses only, so two processes that use one address
for futexes of their own meet in it.
- `run_futexWake`: the steps of a FUTEX_WAKE that nothing interrupts compute `futexWake`.
- `wakes_own_iff`: in every state reached, a FUTEX_WAKE wakes min(n, w) waiters of process `p` and touches nothing else if
  and only if each waiter of another process on the same address has n waiters on that address in lower slots.
- `wakes_a_stranger`: one thread waits, a thread of another process wakes the same address, and the wait ends.
-/
import SwiftCore.Syscall.FutexWait

namespace SwiftCore.Syscall.FutexWake

open Run SwiftCore.Task SwiftCore.Task.Threads Futex FutexWait Function

/-! ## Specification -/

def processOf (q : Threads) (tid : ℕ) : Option ℕ := (q.get tid).map Thread.processId

/-- the threads of process `p` that wait on `uaddr` -/
def waiters (s : State) (p : ℕ) (uaddr : UInt64) : Finset ℕ :=
  ((((List.range' 0 (maxFutexWaiters - 0)).filterMap s.queue).filter fun e =>
    e.uaddr = uaddr ∧ processOf s.threads e.tid = some p).map FutexWaitEntry.tid).toFinset

/-- from `s` to `s'`, min(n, w) of the `w` waiters of process `p` on `uaddr` have left the queue and been woken, and
nothing else has changed -/
def WakesOwn (s s' : State) (p : ℕ) (uaddr : UInt64) (n : ℕ) : Prop :=
  ∃ woken ⊆ waiters s p uaddr, woken.card = min n (waiters s p uaddr).card ∧
    (∀ i e, i < maxFutexWaiters → (s'.queue i = some e ↔ s.queue i = some e ∧ e.tid ∉ woken)) ∧
    ∀ tid, s'.threads.get tid =
      if tid ∈ woken then (s.threads.get tid).map fun t => (setFutexTimedOut false t).woken else s.threads.get tid

/-- the number of waiters on `uaddr` in slots before `i` -/
def ahead (q : FutexQueue) (uaddr : UInt64) (i : ℕ) : ℕ :=
  (List.range' 0 (i - 0)).countP fun j => (q j).any fun e => e.uaddr = uaddr

/-- a waiter of another process on `uaddr` has at least `n` waiters on `uaddr` before it -/
def StrangersBehind (s : State) (p : ℕ) (uaddr : UInt64) (n : ℕ) : Prop :=
  ∀ i e, i < maxFutexWaiters → s.queue i = some e → e.uaddr = uaddr → processOf s.threads e.tid ≠ some p →
    n ≤ ahead s.queue uaddr i

/-! ## Waiters -/

section Waiters

variable {s : State} {p : ℕ} {uaddr : UInt64}

theorem mem_waiters {tid : ℕ} :
    tid ∈ waiters s p uaddr ↔ QueuedOn s.queue tid uaddr ∧ processOf s.threads tid = some p := by
  simp only [waiters, List.mem_toFinset, List.mem_map, List.mem_filter, List.mem_filterMap, SlotTable.mem_slots,
    decide_eq_true_eq]
  constructor
  · rintro ⟨e, ⟨⟨i, ⟨-, hi⟩, he⟩, hu, hp⟩, rfl⟩
    exact ⟨⟨i, hi, e, he, rfl, hu⟩, hp⟩
  · rintro ⟨⟨i, hi, e, he, rfl, hu⟩, hp⟩
    exact ⟨e, ⟨⟨i, ⟨Nat.zero_le i, hi⟩, he⟩, hu, hp⟩, rfl⟩

/-- the number of entries on `uaddr`, of all processes -/
def entriesOn (q : FutexQueue) (uaddr : UInt64) : ℕ :=
  ((List.range' 0 (maxFutexWaiters - 0)).filter fun i => (q i).any fun e => e.uaddr = uaddr).length

theorem entriesOn_le (q : FutexQueue) (uaddr : UInt64) : entriesOn q uaddr ≤ maxFutexWaiters := by
  unfold entriesOn
  calc _ ≤ (List.range' 0 (maxFutexWaiters - 0)).length := List.length_filter_le _ _
    _ = maxFutexWaiters := List.length_range'

theorem card_waiters_le : (waiters s p uaddr).card ≤ entriesOn s.queue uaddr := by
  unfold waiters entriesOn
  calc _ ≤ (((List.range' 0 (maxFutexWaiters - 0)).filterMap s.queue).filter fun e =>
        e.uaddr = uaddr ∧ processOf s.threads e.tid = some p).length := by
        rw [← List.length_map (f := FutexWaitEntry.tid)]
        exact List.toFinset_card_le _
    _ ≤ (((List.range' 0 (maxFutexWaiters - 0)).filterMap s.queue).filter fun e => e.uaddr = uaddr).length := by
        rw [← List.countP_eq_length_filter, ← List.countP_eq_length_filter]
        apply List.countP_mono_left
        intro e _ he
        simp only [decide_eq_true_eq] at he ⊢
        exact he.1
    _ = _ := SlotTable.length_filter_filterMap _ _ _

end Waiters

/-! ## What FUTEX_WAKE does -/

section Wake

variable {s : State} {uaddr : UInt64}

/-- the list that FUTEX_WAKE makes -/
def woken (s : State) (uaddr val : UInt64) : List ℕ := (takeWaiters s.queue uaddr (min val.toNat maxFutexWaiters)).1

theorem futexWake_eq (s : State) (uaddr val : UInt64) :
    (futexWake s uaddr val).2 = ⟨wakeAll false s.threads (woken s uaddr val),
      (takeWaiters s.queue uaddr (min val.toNat maxFutexWaiters)).2⟩ := by
  unfold futexWake woken
  dsimp only
  split_ifs with hzero
  · rw [hzero, takeWaiters_eq]
    simp [takenSlots, SlotTable.taken, wakeAll, SlotTable.clear_nothing]
  · rfl

/-- a thread is listed when its entry on `uaddr` has fewer than `val` entries on `uaddr` before it -/
theorem mem_woken {val : UInt64} {tid : ℕ} :
    tid ∈ woken s uaddr val ↔ ∃ i e, i < maxFutexWaiters ∧ s.queue i = some e ∧ e.tid = tid ∧ e.uaddr = uaddr ∧
      ahead s.queue uaddr i < val.toNat := by
  have hroom : ∀ i, i < maxFutexWaiters →
      (ahead s.queue uaddr i < min val.toNat maxFutexWaiters ↔ ahead s.queue uaddr i < val.toNat) := by
    intro i hi
    have hle : ahead s.queue uaddr i ≤ i := by
      calc ahead s.queue uaddr i ≤ (List.range' 0 (i - 0)).length := List.countP_le_length
        _ = i := List.length_range'
    omega
  rw [woken, mem_takeWaiters]
  constructor
  · rintro ⟨i, hi, hmem, e, he, htid⟩
    obtain ⟨-, -, hon, hahead⟩ := SlotTable.mem_taken.1 (of_decide_eq_true hmem)
    rw [he] at hon
    exact ⟨i, e, hi, he, htid, by simpa using hon, (hroom i hi).1 hahead⟩
  · rintro ⟨i, e, hi, he, htid, hu, hahead⟩
    refine ⟨i, hi, decide_eq_true ?_, e, he, htid⟩
    exact SlotTable.mem_taken.2 ⟨Nat.zero_le i, hi, by simp [he, hu], (hroom i hi).2 hahead⟩

theorem nodup_woken (hone : OneEach s.queue) (uaddr val : UInt64) : (woken s uaddr val).Nodup := by
  rw [woken, takeWaiters_eq]
  apply SlotTable.nodup_map_filterMap
  · exact ((List.nodup_range').filter _).sublist (List.take_sublist _ _)
  · intro i hi j hj a b ha hb hab
    exact hone (SlotTable.mem_taken.1 hi).2.1 (SlotTable.mem_taken.1 hj).2.1 ha hb hab

theorem length_woken (s : State) (uaddr val : UInt64) :
    (woken s uaddr val).length = min val.toNat (entriesOn s.queue uaddr) := by
  have hfull : ∀ i ∈ takenSlots s.queue uaddr (min val.toNat maxFutexWaiters), (s.queue i).isSome = true := by
    intro i hi
    have hon := (SlotTable.mem_taken.1 hi).2.2.1
    cases hq : s.queue i with
    | none => simp [hq] at hon
    | some e => rfl
  have hle := entriesOn_le s.queue uaddr
  calc (woken s uaddr val).length = (takenSlots s.queue uaddr (min val.toNat maxFutexWaiters)).length := by
        rw [woken, takeWaiters_eq, List.length_map, List.length_filterMap_eq_countP, List.countP_eq_length.2 hfull]
    _ = min (min val.toNat maxFutexWaiters) (entriesOn s.queue uaddr) := by
        rw [takenSlots, SlotTable.taken, List.length_take, entriesOn]
    _ = min val.toNat (entriesOn s.queue uaddr) := by omega

/-- the threads of the list are woken with the flag down, the others are left alone -/
theorem get_wakeAll (b : Bool) (l : List ℕ) (hnodup : l.Nodup) (q : Threads) (tid : ℕ) :
    (wakeAll b q l).get tid =
      if tid ∈ l then (q.get tid).map fun t => (setFutexTimedOut b t).woken else q.get tid := by
  induction l generalizing q with
  | nil => rfl
  | cons t l ih =>
    obtain ⟨ht, hnodup⟩ := List.nodup_cons.1 hnodup
    rw [wakeAll, List.foldl_cons, ← wakeAll, ih hnodup, get_wakeThread,
      get_withThreadMut (f := setFutexTimedOut b) (fun _ => rfl)]
    by_cases heq : tid = t
    · subst heq
      simp [ht, comp_def]
    · simp [heq]

end Wake

/-! ## Own waiters only -/

section Own

variable {s : State} {p : ℕ} {uaddr : UInt64}

/-- the set of threads woken can only be the one listed -/
theorem eq_woken_of_queue (hone : OneEach s.queue) {val : UInt64} {set : Finset ℕ} (hsub : set ⊆ waiters s p uaddr)
    (hqueue : ∀ i e, i < maxFutexWaiters →
      ((futexWake s uaddr val).2.queue i = some e ↔ s.queue i = some e ∧ e.tid ∉ set)) :
    ∀ tid, tid ∈ set ↔ tid ∈ woken s uaddr val := by
  have hdrain := drained_takeWaiters hone uaddr (min val.toNat maxFutexWaiters)
  have hslots : ∀ i e, i < maxFutexWaiters → s.queue i = some e → (e.tid ∉ set ↔ e.tid ∉ woken s uaddr val) := by
    intro i e hi he
    have hleft := hqueue i e hi
    rw [futexWake_eq] at hleft
    have hboth := hleft.symm.trans (hdrain.slots hi)
    simpa [he, woken] using hboth
  intro tid
  constructor
  · intro hmem
    obtain ⟨⟨i, hi, e, he, rfl, -⟩, -⟩ := mem_waiters.1 (hsub hmem)
    by_contra hno
    exact (hslots i e hi he).2 hno hmem
  · intro hmem
    obtain ⟨i, e, hi, he, rfl, -⟩ := mem_woken.1 hmem
    by_contra hno
    exact (hslots i e hi he).1 hno hmem

theorem woken_subset {val : UInt64} (hbehind : StrangersBehind s p uaddr val.toNat) :
    ∀ tid ∈ woken s uaddr val, tid ∈ waiters s p uaddr := by
  intro tid hmem
  obtain ⟨i, e, hi, he, rfl, hu, hahead⟩ := mem_woken.1 hmem
  refine mem_waiters.2 ⟨⟨i, hi, e, he, rfl, hu⟩, ?_⟩
  by_contra hstranger
  have := hbehind i e hi he hu hstranger
  omega

theorem wakesOwn_iff (hone : OneEach s.queue) (val : UInt64) :
    WakesOwn s (futexWake s uaddr val).2 p uaddr val.toNat ↔ StrangersBehind s p uaddr val.toNat := by
  have hnodup := nodup_woken hone uaddr val
  constructor
  · rintro ⟨set, hsub, -, hqueue, -⟩ i e hi he hu hstranger
    by_contra hahead
    have hmem : e.tid ∈ woken s uaddr val := mem_woken.2 ⟨i, e, hi, he, rfl, hu, Nat.lt_of_not_le hahead⟩
    have hown := hsub ((eq_woken_of_queue hone hsub hqueue e.tid).2 hmem)
    exact hstranger (mem_waiters.1 hown).2
  · intro hbehind
    have hsub := woken_subset hbehind
    have hcard : (woken s uaddr val).toFinset.card = min val.toNat (entriesOn s.queue uaddr) := by
      rw [List.toFinset_card_of_nodup hnodup, length_woken]
    have hle : (woken s uaddr val).toFinset.card ≤ (waiters s p uaddr).card := by
      apply Finset.card_le_card
      intro tid hmem
      exact hsub tid (List.mem_toFinset.1 hmem)
    have hall : (waiters s p uaddr).card ≤ entriesOn s.queue uaddr := card_waiters_le
    refine ⟨(woken s uaddr val).toFinset, ?_, by omega, ?_, ?_⟩
    · intro tid hmem
      exact hsub tid (List.mem_toFinset.1 hmem)
    · intro i e hi
      rw [futexWake_eq, List.mem_toFinset]
      exact (drained_takeWaiters hone uaddr _).slots hi
    · intro tid
      rw [futexWake_eq]
      simp only [List.mem_toFinset]
      exact get_wakeAll false _ hnodup s.threads tid

end Own

/-! ## Runs -/

/-- the steps behind the lock finish the loop over the list -/
theorem run_wakeNext (l : List ℕ) (w : World) (hp : w.points w.current = .waking l false) :
    World.state (run step w (List.replicate (2 * l.length + 1) .wakeNext)) =
      ⟨wakeAll false w.threads l, w.queue⟩ := by
  induction l generalizing w with
  | nil =>
    simp only [List.length_nil, Nat.mul_zero, Nat.zero_add, List.replicate_one, run_cons, run_nil, step, hp]
    rfl
  | cons t l ih =>
    have hlen : 2 * (t :: l).length + 1 = (2 * l.length + 1) + 1 + 1 := by simp; omega
    rw [hlen, List.replicate_succ, List.replicate_succ, run_cons, run_cons]
    have hreset : step w .wakeNext =
        goto { w with threads := w.threads.withThreadMut t (setFutexTimedOut false) } (.waking (t :: l) true) := by
      simp only [step, hp]
    have hpoint : (step w .wakeNext).points (step w .wakeNext).current = .waking (t :: l) true := by
      rw [hreset]
      exact update_self ..
    have hwake : step (step w .wakeNext) .wakeNext =
        goto { step w .wakeNext with threads := wakeThread (step w .wakeNext).threads t } (.waking l false) := by
      conv_lhs => rw [step]
      rw [hpoint]
    have hrest := ih (step (step w .wakeNext) .wakeNext) (by rw [hwake]; exact update_self ..)
    rw [hrest, hwake, hreset]
    rfl

/-- **One call.** The steps of a FUTEX_WAKE that nothing interrupts compute `futexWake`. -/
theorem run_futexWake {w : World} (hp : w.points w.current = .outside) {uaddr val : UInt64} (hu : uaddr ≠ 0)
    (hval : min val.toNat maxFutexWaiters ≠ 0) :
    World.state (run step w (.wake uaddr val true ::
      List.replicate (2 * (woken w.state uaddr val).length + 1) .wakeNext)) = (futexWake w.state uaddr val).2 := by
  have hlock : step w (.wake uaddr val true) =
      goto { w with queue := (takeWaiters w.queue uaddr (min val.toNat maxFutexWaiters)).2
                    removal := mark w.removal (woken w.state uaddr val) .wake } (.waking (woken w.state uaddr val) false) := by
    simp only [step, hp, if_true, hu, hval, false_or, Bool.true_eq_false, if_false]
    rfl
  have hpoint : (step w (.wake uaddr val true)).points (step w (.wake uaddr val true)).current =
      .waking (woken w.state uaddr val) false := by
    rw [hlock]
    exact update_self ..
  rw [run_cons, run_wakeNext (woken w.state uaddr val) (step w (.wake uaddr val true)) hpoint, futexWake_eq, hlock]
  simp only [goto, World.state]

/-- **Wake-ups of one's own.** In every state reached, FUTEX_WAKE(uaddr, n) wakes min(n, w) of the `w` waiters of process
`p` on `uaddr` and leaves every other entry in place if and only if each waiter of another process on `uaddr` has `n`
waiters on `uaddr` in lower slots. -/
theorem wakes_own_iff {w : World} (h : Started w) (ops : List Op) (p : ℕ) (uaddr val : UInt64) :
    WakesOwn (run step w ops).state (futexWake (run step w ops).state uaddr val).2 p uaddr val.toNat ↔
      StrangersBehind (run step w ops).state p uaddr val.toNat := by
  have hinv := inv_run inv_step w ops h.inv
  exact wakesOwn_iff hinv.oneEach val

/-- thread 1 waits on an address, and thread 2 runs -/
def firstWaits : List Op := [.wait 0x1000 5 0 true, .reset, .enqueue (some 5)]

/-- thread 2 of the same process wakes it -/
theorem wakes_own_sibling :
    processOf (run step (pair 1) firstWaits).threads (run step (pair 1) firstWaits).current = some 1 ∧
    WakesOwn (run step (pair 1) firstWaits).state (futexWake (run step (pair 1) firstWaits).state 0x1000 1).2 1 0x1000 1 := by
  refine ⟨by decide +kernel, (wakes_own_iff (pair_started 1) firstWaits 1 0x1000 1).2 ?_⟩
  have hown : ∀ i < maxFutexWaiters, ((run step (pair 1) firstWaits).queue i).all
      (fun e => processOf (run step (pair 1) firstWaits).threads e.tid = some 1) = true := by decide +kernel
  intro i e hi he _ hstranger
  have := hown i hi
  rw [show (run step (pair 1) firstWaits).queue i = some e from he] at this
  simp only [Option.all_some, decide_eq_true_eq] at this
  exact absurd this hstranger

/-- the call in steps -/
theorem run_futexWake_sibling :
    World.state (run step (run step (pair 1) firstWaits) [.wake 0x1000 1 true, .wakeNext, .wakeNext, .wakeNext]) =
      (futexWake (run step (pair 1) firstWaits).state 0x1000 1).2 := by
  have hone : (woken (run step (pair 1) firstWaits).state 0x1000 1).length = 1 := by decide +kernel
  have := @run_futexWake (run step (pair 1) firstWaits) (by decide +kernel) 0x1000 1 (by decide) (by decide)
  rwa [hone] at this

/-- thread 2 of another process wakes its own address: the entry of thread 1 is gone -/
theorem wakes_a_stranger :
    processOf (run step (pair 2) firstWaits).threads (run step (pair 2) firstWaits).current = some 2 ∧
    ¬ WakesOwn (run step (pair 2) firstWaits).state (futexWake (run step (pair 2) firstWaits).state 0x1000 1).2 2 0x1000 1 := by
  refine ⟨by decide +kernel, ?_⟩
  rintro ⟨set, hsub, -, hqueue, -⟩
  have hnone : waiters (run step (pair 2) firstWaits).state 2 0x1000 = ∅ := by decide +kernel
  have hbefore : (run step (pair 2) firstWaits).state.queue 0 = some ⟨1, 0x1000, noTimeoutWakeTick⟩ := by decide +kernel
  have hafter : (futexWake (run step (pair 2) firstWaits).state 0x1000 1).2.queue 0 = none := by decide +kernel
  -- no thread of process 2 waits, so every entry would have to stay
  have hempty : 1 ∉ set := by
    intro hmem
    have := hsub hmem
    rw [hnone] at this
    exact absurd this (Finset.notMem_empty 1)
  cases hafter.symm.trans ((hqueue 0 ⟨1, 0x1000, noTimeoutWakeTick⟩ (by decide)).2 ⟨hbefore, hempty⟩)

end SwiftCore.Syscall.FutexWake
