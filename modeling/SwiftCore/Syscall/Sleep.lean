/-
Threads that sleep for a time (core/syscall/time.rs: sleep_until, register_sleep_entry, wake_due_sleepers; the ends of
threads in core/task/scheduler.rs: terminate_thread, exit_current_task).

The sleep queue has as many slots as the thread table. Threads are created, sleep, exit and are terminated by others,
with timer interrupts in between. A thread that ends leaves the thread table and the futex queue; the sleep queue is not
looked at.
`sleep_until` looks at the clock before it disables interrupts, so a tick may fall between its check and its registration.
- `inv_step`: while no thread ends that has an entry, each entry belongs to one thread of the table.
- `sleeps_of_spared`: then `sleep_until` never fails for lack of slots.
- `killed_sleepers_fill_the_queue`: threads terminated in a long sleep leave their entries, and a later sleep fails.
-/
import SwiftCore.Lib.Run
import SwiftCore.Syscall.Types
import SwiftCore.Task.Scheduler

namespace SwiftCore.Syscall.Sleep

open Run SwiftCore.Task SwiftCore.Task.Threads Function

/-! ## Model -/

structure SleepEntry where
  tid : ℕ
  wakeTick : UInt64
deriving DecidableEq, Repr

def maxSleepers : ℕ := maxThreads

/-- `SLEEP_QUEUE` -/
abbrev SleepQueue := ℕ → Option SleepEntry

def registerSleepEntry (q : SleepQueue) (tid : ℕ) (wakeTick : UInt64) : Bool × SleepQueue :=
  match SlotTable.firstSlot 0 maxSleepers (fun e => e.tid = tid) q with
  | some i => (true, update q i (some ⟨tid, wakeTick⟩))
  | none =>
    match SlotTable.firstFree 0 maxSleepers q with
    | some i => (true, update q i (some ⟨tid, wakeTick⟩))
    | none => (false, q)

/-- `wake_due_sleepers`: its list has room for every entry of the queue -/
def wakeDueSleepers (threads : Threads) (q : SleepQueue) (now : UInt64) : Threads × SleepQueue :=
  let due : ℕ → Bool := fun i => (q i).any fun e => e.wakeTick ≤ now
  ((SlotTable.select 0 maxSleepers due q).foldl (fun threads e => wakeThread threads e.tid) threads,
    SlotTable.clear due q)

/-- where a thread is -/
inductive Point
  | outside
  /-- in `sleep_until`, before the registration -/
  | checked (ticks : UInt64)
  /-- in the loop of `sleep_until` -/
  | sleeping (ticks : UInt64)
deriving DecidableEq, Repr

structure World where
  threads : Threads
  queue : SleepQueue
  ticks : UInt64
  current : Option ℕ
  nextId : ℕ
  points : ℕ → Point
  /-- the threads whose `sleep_until` returned EAGAIN -/
  refused : List ℕ

inductive Op
  | spawn (pid : ℕ)
  -- steps of the current thread
  | sleepUntil (ticks : UInt64)
  | register
  | loop
  | yieldNow
  | exit
  -- `terminate_thread`, of the current thread or of another
  | terminate (tid : ℕ)
  | wake (tid : ℕ)
  | tick (slice : Bool)

def switch (w : World) : World :=
  { w with threads := (schedule w.threads w.current).2, current := (schedule w.threads w.current).1.or w.current }

/-- the current thread is over: the next one runs; `removed` says whether the old one is taken out of the table first -/
def handOver (w : World) (tid : ℕ) (removed : Bool) : World :=
  let q := w.threads.withThreadMut tid (Thread.setState .terminated)
  match schedule q none with
  | (some next, q) => { w with threads := if removed then (q.remove tid).2 else q, current := some next }
  | (none, q) => { w with threads := (q.remove tid).2, current := none }

def step (w : World) : Op → World
  | .spawn pid => { w with threads := (w.threads.push (Thread.new w.nextId pid)).2, nextId := w.nextId + 1 }
  | .sleepUntil ticks =>
    match w.current with
    | none => w
    | some tid =>
      if w.points tid ≠ .outside ∨ ticks ≤ w.ticks then w
      else { w with points := update w.points tid (.checked ticks) }
  | .register =>
    match w.current with
    | none => w
    | some tid =>
      match w.points tid with
      | .checked ticks =>
        -- interrupts are off
        match registerSleepEntry w.queue tid ticks with
        | (false, _) => { w with refused := w.refused ++ [tid], points := update w.points tid .outside }
        | (true, queue) =>
          { w with queue, threads := sleepThread w.threads tid
                   points := update w.points tid (.sleeping ticks) }
      | _ => w
  | .loop =>
    match w.current with
    | none => w
    | some tid =>
      match w.points tid with
      | .sleeping ticks =>
        if w.ticks < ticks then switch w else { w with points := update w.points tid .outside }
      | _ => w
  | .yieldNow => if w.current.all (fun tid => w.points tid = .outside) then switch w else w
  | .exit =>
    match w.current with
    | none => w
    | some tid => if w.points tid = .outside then handOver w tid true else w
  | .terminate tid =>
    -- of the current thread the code behind `yield_now` runs only if no other thread is ready
    if w.current = some tid then handOver w tid false
    else { w with threads := ((w.threads.withThreadMut tid (Thread.setState .terminated)).remove tid).2 }
  | .wake tid => { w with threads := wakeThread w.threads tid }
  | .tick slice =>
    let (threads, queue) := wakeDueSleepers w.threads w.queue (saturatingAddU64 w.ticks 1)
    let w := { w with threads, queue, ticks := w.ticks + 1 }
    if slice then switch w else w

/-! ## Specification -/

/-- no thread has two entries -/
def OneEach (q : SleepQueue) : Prop :=
  ∀ ⦃i j a b⦄, i < maxSleepers → j < maxSleepers → q i = some a → q j = some b → a.tid = b.tid → i = j

/-- no sleep was refused, no thread has two entries, and every entry belongs to a thread of the table -/
structure Sound (w : World) : Prop where
  refused : w.refused = []
  oneEach : OneEach w.queue
  present : ∀ i e, i < maxSleepers → w.queue i = some e → w.threads.Present e.tid

/-- the thread that ends in a step -/
def ends (w : World) : Op → Option ℕ
  | .exit => w.current.filter fun tid => w.points tid = .outside
  | .terminate tid => some tid
  | _ => none

/-- no thread ends that has an entry -/
def Spares (w : World) (op : Op) : Prop := ∀ i < maxSleepers, ∀ e ∈ w.queue i, ends w op ≠ some e.tid

instance (w : World) (op : Op) : Decidable (Spares w op) :=
  inferInstanceAs (Decidable (∀ i < maxSleepers, ∀ e ∈ w.queue i, ends w op ≠ some e.tid))

/-- threads in the table, none asleep -/
structure Started (w : World) : Prop where
  distinct : w.threads.Distinct
  fresh : ∀ tid, w.threads.Present tid → tid < w.nextId
  queue : ∀ i, w.queue i = none
  current : ∀ tid, w.current = some tid → w.threads.Present tid
  refused : w.refused = []

/-! ## The queue -/

section Queue

variable {q q' : SleepQueue} {tid : ℕ} {wakeTick : UInt64}

/-- a registration writes one slot, and no other holds an entry of the thread -/
theorem registered (hone : OneEach q) (h : registerSleepEntry q tid wakeTick = (true, q')) :
    ∃ k, q' = update q k (some ⟨tid, wakeTick⟩) ∧
      ∀ i e, i < maxSleepers → i ≠ k → q i = some e → e.tid ≠ tid := by
  unfold registerSleepEntry at h
  cases hown : SlotTable.firstSlot 0 maxSleepers (fun e => e.tid = tid) q with
  | some k =>
    obtain ⟨-, hk, old, hold, hp⟩ := SlotTable.firstSlot_some hown
    have htid : old.tid = tid := by simpa using hp
    simp only [hown, Prod.mk.injEq, true_and] at h
    exact ⟨k, h.symm, fun i e hi hik he heq => hik (hone hi hk he hold (heq.trans htid.symm))⟩
  | none =>
    have hnot := SlotTable.firstSlot_eq_none.1 hown
    cases hfree : SlotTable.firstFree 0 maxSleepers q with
    | none => simp [hown, hfree] at h
    | some k =>
      simp only [hown, hfree, Prod.mk.injEq, true_and] at h
      exact ⟨k, h.symm, fun i e hi _ he => by simpa using hnot i e (Nat.zero_le i) hi he⟩

/-- the entries after a registration: the new one, and the old ones of other threads -/
theorem registered_entries (hone : OneEach q) (h : registerSleepEntry q tid wakeTick = (true, q')) {i : ℕ}
    {e : SleepEntry} (hi : i < maxSleepers) (he : q' i = some e) :
    e = ⟨tid, wakeTick⟩ ∨ q i = some e ∧ e.tid ≠ tid := by
  obtain ⟨k, rfl, hothers⟩ := registered hone h
  rw [update_apply] at he
  split_ifs at he with hik
  · exact .inl (Option.some.inj he).symm
  · exact .inr ⟨he, hothers i e hi hik he⟩

theorem registered_oneEach (hone : OneEach q) (h : registerSleepEntry q tid wakeTick = (true, q')) : OneEach q' := by
  obtain ⟨k, rfl, hothers⟩ := registered hone h
  have hslot : ∀ i e, i < maxSleepers → update q k (some ⟨tid, wakeTick⟩) i = some e →
      (i = k ∧ e.tid = tid) ∨ (i ≠ k ∧ q i = some e ∧ e.tid ≠ tid) := by
    intro i e hi he
    rw [update_apply] at he
    split_ifs at he with hik
    · exact .inl ⟨hik, (Option.some.inj he) ▸ rfl⟩
    · exact .inr ⟨hik, he, hothers i e hi hik he⟩
  intro i j a b hi hj ha hb hab
  rcases hslot i a hi ha with ⟨hik, hat⟩ | ⟨-, ha', hat⟩ <;> rcases hslot j b hj hb with ⟨hjk, hbt⟩ | ⟨-, hb', hbt⟩
  · rw [hik, hjk]
  · exact absurd (hab.symm.trans hat) hbt
  · exact absurd (hab.trans hbt) hat
  · exact hone hi hj ha' hb' hab

end Queue

/-! ## The invariant -/

structure Inv (w : World) : Prop where
  sound : Sound w
  current : ∀ tid, w.current = some tid → w.threads.Present tid
  distinct : w.threads.Distinct
  fresh : ∀ tid, w.threads.Present tid → tid < w.nextId

section Invariant

variable {w : World}

/-- **Room.** If every entry belongs to a thread other than the caller, there is a slot for the caller. -/
theorem Inv.room (h : Inv w) {tid : ℕ} (hcur : w.current = some tid)
    (hothers : ∀ i e, i < maxSleepers → w.queue i = some e → e.tid ≠ tid) :
    SlotTable.firstFree 0 maxSleepers w.queue ≠ none := by
  obtain ⟨k, hk⟩ := (h.current tid hcur).slotIndex
  have hplace : ∀ i, i < maxSleepers → w.queue i ≠ none → ∃ e j, w.queue i = some e ∧
      w.threads.slotIndex e.tid = some j := by
    intro i hi hne
    obtain ⟨e, he⟩ := Option.ne_none_iff_exists'.1 hne
    obtain ⟨j, hj⟩ := (h.sound.present i e hi he).slotIndex
    exact ⟨e, j, he, hj⟩
  -- each entry goes to the slot of its thread in the thread table
  let g : ℕ → ℕ := fun i => ((w.queue i).bind fun e => w.threads.slotIndex e.tid).getD 0
  have hg : ∀ {i e j}, w.queue i = some e → w.threads.slotIndex e.tid = some j → g i = j := by
    intro i e j he hj
    simp [g, he, hj]
  apply SlotTable.firstFree_of_injection (g := g) (slotIndex_some hk).1
  · intro i hi hne
    obtain ⟨e, j, he, hj⟩ := hplace i hi hne
    rw [hg he hj]
    refine ⟨(slotIndex_some hj).1, ?_⟩
    rintro rfl
    exact hothers i e hi he (slotIndex_inj hj hk)
  · intro i i' hi hi' hne hne' heq
    obtain ⟨e, j, he, hj⟩ := hplace i hi hne
    obtain ⟨e', j', he', hj'⟩ := hplace i' hi' hne'
    rw [hg he hj, hg he' hj'] at heq
    subst heq
    exact h.sound.oneEach hi hi' he he' (slotIndex_inj hj hj')

theorem Inv.register (h : Inv w) {tid : ℕ} (hcur : w.current = some tid) (ticks : UInt64) :
    (registerSleepEntry w.queue tid ticks).1 = true := by
  unfold registerSleepEntry
  cases hown : SlotTable.firstSlot 0 maxSleepers (fun e => e.tid = tid) w.queue with
  | some i => rfl
  | none =>
    have hothers := SlotTable.firstSlot_eq_none.1 hown
    obtain ⟨k, hk⟩ := Option.ne_none_iff_exists'.1
      (h.room hcur fun i e hi he => by simpa using hothers i e (Nat.zero_le i) hi he)
    simp [hk]

/-! ## Steps -/

variable {threads : Threads} {current : Option ℕ} {ticks : UInt64}

section

variable (h : Inv w)

include h

/-- a step that changes the threads only, and keeps those with an entry -/
theorem inv_threads (hkeep : ∀ i e, i < maxSleepers → w.queue i = some e → threads.Present e.tid)
    (hcur : ∀ tid, current = some tid → threads.Present tid) (hdist : threads.Distinct)
    (hfresh : ∀ tid, threads.Present tid → w.threads.Present tid) : Inv { w with threads, current } where
  sound := ⟨h.sound.refused, h.sound.oneEach, hkeep⟩
  current := hcur
  distinct := hdist
  fresh := fun tid hp => h.fresh tid (hfresh tid hp)

/-- a step that changes the states of threads -/
theorem inv_states (hids : ∀ i, (threads.slots i).map Thread.id = (w.threads.slots i).map Thread.id)
    (hcur : ∀ tid, current = some tid → threads.Present tid) : Inv { w with threads, current } :=
  inv_threads h (fun i e hi he => (h.sound.present i e hi he).congr hids) hcur (h.distinct.congr hids)
    fun _ hp => hp.congr fun i => (hids i).symm

theorem inv_switch : Inv (switch w) := by
  refine inv_states h (schedule_ids w.threads w.current) ?_
  intro tid htid
  cases hpick : (schedule w.threads w.current).1 with
  | some id =>
    rw [hpick, Option.some_or, Option.some.injEq] at htid
    exact htid ▸ schedule_present hpick
  | none =>
    rw [hpick, Option.none_or] at htid
    exact (h.current tid htid).schedule w.current

theorem inv_withThreadMut {f : Thread → Thread} (hf : ∀ t, (f t).id = t.id) (id : ℕ) :
    Inv { w with threads := w.threads.withThreadMut id f } :=
  inv_states h (withThreadMut_ids hf id) fun tid htid => (h.current tid htid).congr (withThreadMut_ids hf id)

omit h in
theorem present_of_remove {q : Threads} {id tid : ℕ} (h : (q.remove id).2.Present tid) : q.Present tid := by
  obtain ⟨i, hi, hid⟩ := h
  refine ⟨i, hi, ?_⟩
  rcases slots_remove q id with hsame | ⟨k, -, hslots⟩
  · rwa [hsame] at hid
  · rw [hslots, update_apply] at hid
    split_ifs at hid with hik
    · cases hid
    · exact hid

/-- a thread without an entry leaves the table -/
theorem inv_remove {tid : ℕ} (hnone : ∀ i e, i < maxSleepers → w.queue i = some e → e.tid ≠ tid)
    (hids : ∀ i, (threads.slots i).map Thread.id = (w.threads.slots i).map Thread.id)
    (hcur : ∀ c, current = some c → threads.Present c ∧ c ≠ tid) :
    Inv { w with threads := (threads.remove tid).2, current } := by
  apply inv_threads h
  · intro i e hi he
    exact ((h.sound.present i e hi he).congr hids).remove (hnone i e hi he)
  · intro c hc
    exact (hcur c hc).1.remove (hcur c hc).2
  · exact (h.distinct.congr hids).remove tid
  · intro c hp
    exact (present_of_remove hp).congr fun i => (hids i).symm

theorem inv_handOver {tid : ℕ} (hnone : ∀ i e, i < maxSleepers → w.queue i = some e → e.tid ≠ tid)
    (removed : Bool) : Inv (handOver w tid removed) := by
  have hids : ∀ i, ((schedule (w.threads.withThreadMut tid (Thread.setState .terminated)) none).2.slots i).map
      Thread.id = (w.threads.slots i).map Thread.id := by
    intro i
    rw [schedule_ids]
    exact withThreadMut_ids (f := Thread.setState .terminated) (fun _ => rfl) tid i
  have hpicked : ∀ next, (schedule (w.threads.withThreadMut tid (Thread.setState .terminated)) none).1 = some next →
      (schedule (w.threads.withThreadMut tid (Thread.setState .terminated)) none).2.Present next ∧ next ≠ tid :=
    fun next hnext => ⟨schedule_present hnext, schedule_ne_terminated h.distinct hnext⟩
  unfold handOver
  dsimp only
  generalize schedule (w.threads.withThreadMut tid (Thread.setState .terminated)) none = r at hids hpicked
  obtain ⟨pick, threads⟩ := r
  cases pick with
  | none => exact inv_remove h hnone hids nofun
  | some next =>
    have hcur : ∀ c, some next = some c → threads.Present c ∧ c ≠ tid := fun c hc => hpicked c hc
    cases removed with
    | true => exact inv_remove h hnone hids hcur
    | false => exact inv_states h hids fun c hc => (hcur c hc).1

theorem inv_spawn (pid : ℕ) : Inv (step w (.spawn pid)) where
  sound := ⟨h.sound.refused, h.sound.oneEach, fun i e hi he => (h.sound.present i e hi he).push _⟩
  current := fun tid htid => (h.current tid htid).push _
  distinct := h.distinct.push fun hp => lt_irrefl _ (h.fresh w.nextId hp)
  fresh := by
    rintro tid ⟨i, hi, hid⟩
    have hid : ((w.threads.push (Thread.new w.nextId pid)).2.slots i).map Thread.id = some tid := hid
    rcases slots_push w.threads (Thread.new w.nextId pid) with hsame | ⟨k, -, -, hslots⟩
    · rw [hsame] at hid
      exact Nat.lt_succ_of_lt (h.fresh tid ⟨i, hi, hid⟩)
    · rw [hslots, update_apply] at hid
      split_ifs at hid with hik
      · exact (Option.some.inj hid) ▸ Nat.lt_succ_self w.nextId
      · exact Nat.lt_succ_of_lt (h.fresh tid ⟨i, hi, hid⟩)

theorem inv_points (points : ℕ → Point) : Inv { w with points } :=
  ⟨⟨h.sound.refused, h.sound.oneEach, h.sound.present⟩, h.current, h.distinct, h.fresh⟩

theorem inv_register {tid : ℕ} (hcur : w.current = some tid) {queue : SleepQueue}
    (hreg : registerSleepEntry w.queue tid ticks = (true, queue)) :
    Inv { w with queue, threads := sleepThread w.threads tid
                 points := update w.points tid (.sleeping ticks) } := by
  have hslept := inv_withThreadMut h (f := Thread.setState .sleeping) (fun _ => rfl) tid
  refine ⟨⟨h.sound.refused, registered_oneEach h.sound.oneEach hreg, ?_⟩, hslept.current, hslept.distinct, hslept.fresh⟩
  intro i e hi he
  rcases registered_entries h.sound.oneEach hreg hi he with rfl | ⟨hold, -⟩
  · exact hslept.current tid hcur
  · exact hslept.sound.present i e hi hold

end

theorem foldl_wake_ids (l : List SleepEntry) (q : Threads) (i : ℕ) :
    ((l.foldl (fun threads e => wakeThread threads e.tid) q).slots i).map Thread.id = (q.slots i).map Thread.id := by
  induction l generalizing q with
  | nil => rfl
  | cons e l ih =>
    rw [List.foldl_cons, ih]
    exact withThreadMut_ids Thread.woken_id e.tid i

theorem inv_timer (h : Inv w) :
    Inv { w with threads := (wakeDueSleepers w.threads w.queue (saturatingAddU64 w.ticks 1)).1
                 queue := (wakeDueSleepers w.threads w.queue (saturatingAddU64 w.ticks 1)).2
                 ticks := w.ticks + 1 } := by
  have hwoken : Inv { w with threads := (wakeDueSleepers w.threads w.queue (saturatingAddU64 w.ticks 1)).1 } :=
    inv_states h (foldl_wake_ids _ w.threads) fun tid htid => (h.current tid htid).congr (foldl_wake_ids _ w.threads)
  have hleft : ∀ {i e}, (wakeDueSleepers w.threads w.queue (saturatingAddU64 w.ticks 1)).2 i = some e →
      w.queue i = some e := by
    intro i e he
    have he : (if (w.queue i).any (fun e => e.wakeTick ≤ saturatingAddU64 w.ticks 1) = true then none
        else w.queue i) = some e := he
    split_ifs at he
    exact he
  refine ⟨⟨h.sound.refused, ?_, ?_⟩, hwoken.current, hwoken.distinct, hwoken.fresh⟩
  · intro i j a b hi hj ha hb hab
    exact h.sound.oneEach hi hj (hleft ha) (hleft hb) hab
  · intro i e hi he
    exact hwoken.sound.present i e hi (hleft he)

theorem inv_step (w : World) (op : Op) (h : Inv w) (hok : Spares w op) : Inv (step w op) := by
  have hnone : ∀ {tid}, ends w op = some tid → ∀ i e, i < maxSleepers → w.queue i = some e → e.tid ≠ tid := by
    rintro tid hend i e hi he rfl
    exact hok i hi e he hend
  cases op with
  | spawn pid => exact inv_spawn h pid
  | sleepUntil ticks =>
    rw [step]
    cases hcur : w.current with
    | none => exact h
    | some tid =>
      dsimp only
      split_ifs with hskip
      · exact h
      · exact hcur ▸ inv_points h _
  | register =>
    rw [step]
    cases hcur : w.current with
    | none => exact h
    | some tid =>
      dsimp only
      split
      · rename_i ticks hp
        have htrue := h.register hcur ticks
        rcases hreg : registerSleepEntry w.queue tid ticks with ⟨_ | _, queue⟩
        · rw [hreg] at htrue
          cases htrue
        · exact hcur ▸ inv_register h hcur hreg
      · exact h
  | loop =>
    rw [step]
    cases hcur : w.current with
    | none => exact h
    | some tid =>
      dsimp only
      split
      · split_ifs
        · exact inv_switch h
        · exact hcur ▸ inv_points h _
      · exact h
  | yieldNow =>
    rw [step]
    split_ifs
    · exact inv_switch h
    · exact h
  | exit =>
    rw [step]
    cases hcur : w.current with
    | none => exact h
    | some tid =>
      dsimp only
      split_ifs with hp
      · exact inv_handOver h (hnone (by simp [ends, hcur, hp])) true
      · exact h
  | terminate tid =>
    rw [step]
    split_ifs with hcur
    · exact inv_handOver h (hnone rfl) false
    · have hids := withThreadMut_ids (q := w.threads) (f := Thread.setState .terminated) (fun _ => rfl) tid
      apply inv_remove h (hnone rfl) hids
      intro c hc
      refine ⟨(h.current c hc).congr hids, ?_⟩
      rintro rfl
      exact hcur hc
  | wake tid => exact inv_withThreadMut h Thread.woken_id tid
  | tick slice =>
    rw [step]
    dsimp only
    split_ifs
    · exact inv_switch (inv_timer h)
    · exact inv_timer h

theorem Started.inv (h : Started w) : Inv w := by
  have hno : ∀ {i e}, w.queue i ≠ some e := fun {i _} he => by cases (h.queue i).symm.trans he
  exact ⟨⟨h.refused, fun _ _ _ _ _ _ ha => absurd ha hno, fun _ _ _ he => absurd he hno⟩,
    h.current, h.distinct, h.fresh⟩

end Invariant

/-! ## Runs -/

/-- **Sleeping never fails.** Whatever threads do, as long as none ends that has an entry in the sleep queue: no
`sleep_until` returns EAGAIN, no thread has two entries, and every entry belongs to a thread of the table. -/
theorem sleeps_of_spared {w : World} (hw : Started w) (ops : List Op) (hok : Along step Spares w ops) :
    Sound (run step w ops) :=
  (inv_along inv_step w ops hw.inv hok).sound

/-- thread 1 alone -/
def lone : World where
  threads := ⟨fun
    | 0 => some ⟨1, 1, .running, false, false⟩
    | _ => none, 1⟩
  queue _ := none
  ticks := 0
  current := some 1
  nextId := 2
  points _ := .outside
  refused := []

theorem lone_started : Started lone := by
  have hslots : ∀ {i t}, lone.threads.slots i = some t → i = 0 ∧ t.id = 1 := by
    intro i t ht
    rcases i with _ | i
    · cases ht
      exact ⟨rfl, rfl⟩
    · cases ht
  refine ⟨?_, ?_, fun _ => rfl, ?_, rfl⟩
  · intro i j t u _ _ ht hu _
    rw [(hslots ht).1, (hslots hu).1]
  · rintro tid ⟨i, -, hid⟩
    obtain ⟨t, ht, rfl⟩ := Option.map_eq_some_iff.1 hid
    rw [(hslots ht).2]
    decide
  · intro tid htid
    cases htid
    exact ⟨0, by decide, rfl⟩

/-- a second thread sleeps for a tick, wakes up and is terminated -/
def sleepThenKilled : List Op :=
  [.spawn 1, .yieldNow, .sleepUntil 1, .register, .loop, .tick true, .loop, .yieldNow, .terminate 2]

theorem sleeps_of_sleepThenKilled : Along step Spares lone sleepThenKilled ∧ Sound (run step lone sleepThenKilled) := by
  have hok : Along step Spares lone sleepThenKilled := by decide +kernel
  exact ⟨hok, sleeps_of_spared lone_started sleepThenKilled hok⟩

/-- thread `tid` is created, goes to sleep for a long time and is terminated by thread 1 -/
def killedAsleep (tid : ℕ) : List Op := [.spawn 1, .yieldNow, .sleepUntil 1000000, .register, .loop, .terminate tid]

/-- as many times as the queue has slots; then thread 1 sleeps for one tick -/
def killedSleepers : List Op := (List.range' 2 maxSleepers).flatMap killedAsleep ++ [.sleepUntil 1, .register]

/-- there are never more than two threads, and the last sleep is refused -/
theorem killed_sleepers_fill_the_queue :
    (run step lone killedSleepers).refused = [1] ∧ ¬ Sound (run step lone killedSleepers) := by
  have hrefused : (run step lone killedSleepers).refused = [1] := by decide +kernel
  refine ⟨hrefused, fun h => ?_⟩
  cases h.refused.symm.trans hrefused

end SwiftCore.Syscall.Sleep
