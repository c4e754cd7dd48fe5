/-
Round-robin scheduling (`schedule` in core/task/scheduler.rs, `peek_next_after` in core/task/thread.rs) over whole runs:
threads are added, removed, put to sleep, blocked and woken in any order, and every pick of `schedule` becomes the current
thread. The current thread is not removed.

- `inv_step`: at most the current thread is running, and it is in the table.
- `window_step`: while a ready thread waits, the current slot only moves towards its slot and does not pass it.
- `round_robin`: `schedule` finds nothing only when no thread is ready or running, at most one thread is running, and
  between two picks of one thread every other thread that was ready until its turn came was picked.
-/
import SwiftCore.Lib.Run
import SwiftCore.Task.Scheduler

namespace SwiftCore.Task.RoundRobin

open Run SwiftCore.Task Threads Function

/-! ## Model -/

structure World where
  threads : Threads
  /-- `NEXT_THREAD_ID` -/
  nextId : ℕ
  current : Option ℕ

def boot : World := ⟨Threads.new, 1, none⟩

inductive Op
  /-- `schedule` and the switch to its pick -/
  | schedule
  | sleep (id : ℕ)
  | block (id : ℕ)
  | wake (id : ℕ)
  | add (processId : ℕ)
  | remove (id : ℕ)

def step (w : World) : Op → World
  | .schedule =>
    { w with threads := (schedule w.threads w.current).2, current := (schedule w.threads w.current).1.or w.current }
  | .sleep id => { w with threads := sleepThread w.threads id }
  | .block id => { w with threads := blockThread w.threads id }
  | .wake id => { w with threads := wakeThread w.threads id }
  | .add pid => { w with threads := (w.threads.push (Thread.new w.nextId pid)).2, nextId := w.nextId + 1 }
  | .remove id => if w.current = some id then w else { w with threads := (w.threads.remove id).2 }

/-- the thread that an operation picks -/
def picked (w : World) : Op → Option ℕ
  | .schedule => (schedule w.threads w.current).1
  | _ => none

/-- the threads picked in a run -/
def picks : World → List Op → List ℕ
  | _, [] => []
  | w, op :: ops => (picked w op).toList ++ picks (step w op) ops

/-- the thread is in the table and ready -/
def Ready (w : World) (id : ℕ) : Prop := ∃ t, w.threads.get id = some t ∧ t.state = .ready

/-! ## The invariant -/

/-- the thread is in the slot -/
def Placed (w : World) (id i : ℕ) : Prop := i < maxThreads ∧ ∃ t, w.threads.slots i = some t ∧ t.id = id

/-- ids are distinct and were handed out; only the current thread runs, and it is in the table -/
structure Inv (w : World) : Prop where
  distinct : w.threads.Distinct
  old : ∀ {id i}, Placed w id i → id < w.nextId
  running : ∀ {i t}, i < maxThreads → w.threads.slots i = some t → t.state = .running → w.current = some t.id
  current : ∀ {id}, w.current = some id → ∃ i, Placed w id i

variable {w : World}

variable {id i a b y x : ℕ}

section

variable (h : Inv w)

include h

theorem Inv.placed_unique {j : ℕ} (hi : Placed w id i) (hj : Placed w id j) : i = j := by
  obtain ⟨hi, t, ht, hid⟩ := hi
  obtain ⟨hj, u, hu, hid'⟩ := hj
  exact h.distinct hi hj ht hu (hid.trans hid'.symm)

omit h in
/-- a change of states leaves every thread in its slot -/
theorem placed_congr {w' : World} (h : ∀ i, (w'.threads.slots i).map Thread.id = (w.threads.slots i).map Thread.id)
    : Placed w' id i ↔ Placed w id i := by
  have hside : ∀ {q : Threads} {j}, (∃ t, q.slots j = some t ∧ t.id = id) ↔ (q.slots j).map Thread.id = some id :=
    fun {q j} => (Option.map_eq_some_iff).symm
  unfold Placed
  rw [hside, hside, h i]

/-- the invariant after a change of states -/
theorem Inv.congr {w' : World}
    (hids : ∀ i, (w'.threads.slots i).map Thread.id = (w.threads.slots i).map Thread.id) (hnext : w'.nextId = w.nextId)
    (hrun : ∀ {i t}, i < maxThreads → w'.threads.slots i = some t → t.state = .running → w'.current = some t.id)
    (hcur : ∀ {id}, w'.current = some id → ∃ i, Placed w id i) : Inv w' where
  distinct := h.distinct.congr hids
  old hp := hnext ▸ h.old ((placed_congr hids).1 hp)
  running := hrun
  current hc := (hcur hc).imp fun _ hp => (placed_congr hids).2 hp

/-- a change of one thread that does not make it run -/
theorem inv_withThreadMut {f : Thread → Thread} (hf : ∀ t, (f t).id = t.id)
    (hrun : ∀ t, (f t).state = .running → t.state = .running) (id : ℕ) :
    Inv { w with threads := w.threads.withThreadMut id f } := by
  refine h.congr (withThreadMut_ids hf id) rfl (fun hi ht hstate => ?_) fun hc => h.current hc
  rcases slots_withThreadMut ht with ht | ⟨u, hu, -, rfl⟩
  · exact h.running hi ht hstate
  · rw [hf u]
    exact h.running hi hu (hrun u hstate)

theorem inv_sleep (id : ℕ) : Inv (step w (.sleep id)) :=
  inv_withThreadMut h (f := Thread.setState .sleeping) (fun _ => rfl) (fun _ hs => nomatch hs) id

theorem inv_block (id : ℕ) : Inv (step w (.block id)) :=
  inv_withThreadMut h (f := Thread.setState .blocked) (fun _ => rfl) (fun _ hs => nomatch hs) id

theorem inv_wake (id : ℕ) : Inv (step w (.wake id)) := by
  refine inv_withThreadMut h Thread.woken_id (fun t hrun => ?_) id
  rcases t.woken_state with hs | hs
  · exact hs.symm.trans hrun
  · exact absurd (hs.symm.trans hrun) nofun

theorem inv_add (pid : ℕ) : Inv (step w (.add pid)) := by
  rcases slots_push w.threads (Thread.new w.nextId pid) with hsame | ⟨i, hi, hfree, hslots⟩
  · have hstep : step w (.add pid) = { w with nextId := w.nextId + 1 } := by simp only [step, hsame]
    rw [hstep]
    exact ⟨h.distinct, fun hp => Nat.lt_succ_of_lt (h.old hp), h.running, h.current⟩
  · -- what a slot holds now is the new thread, or was there before
    have hcases : ∀ {j t}, (step w (.add pid)).threads.slots j = some t →
        (j = i ∧ t = Thread.new w.nextId pid) ∨ w.threads.slots j = some t := by
      intro j t ht
      have ht : (w.threads.push (Thread.new w.nextId pid)).2.slots j = some t := ht
      rw [hslots, update_apply] at ht
      split_ifs at ht with hj
      · subst hj
        exact .inl ⟨rfl, (Option.some.inj ht).symm⟩
      · exact .inr ht
    refine ⟨fun j k t u hj hk ht hu hid => ?_, fun {id j} ⟨hj, t, ht, hid⟩ => ?_, fun {j t} hj ht hrun => ?_, fun {id} hc => ?_⟩
    · rcases hcases ht with ⟨rfl, rfl⟩ | ht <;> rcases hcases hu with ⟨rfl, rfl⟩ | hu
      · rfl
      · exact absurd hid.symm (h.old ⟨hk, u, hu, rfl⟩).ne
      · exact absurd hid (h.old ⟨hj, t, ht, rfl⟩).ne
      · exact h.distinct hj hk ht hu hid
    · rcases hcases ht with ⟨-, rfl⟩ | ht
      · exact hid ▸ Nat.lt_succ_self w.nextId
      · exact Nat.lt_succ_of_lt (h.old ⟨hj, t, ht, hid⟩)
    · rcases hcases ht with ⟨-, rfl⟩ | ht
      · cases hrun
      · exact h.running hj ht hrun
    · obtain ⟨j, hj, t, ht, hid⟩ := h.current hc
      have hne : j ≠ i := by
        rintro rfl
        exact absurd (ht.symm.trans hfree) nofun
      refine ⟨j, hj, t, ?_, hid⟩
      show (w.threads.push (Thread.new w.nextId pid)).2.slots j = some t
      rw [hslots, update_of_ne hne, ht]

theorem inv_remove (id : ℕ) : Inv (step w (.remove id)) := by
  rw [step]
  split_ifs with hcur
  · exact h
  rcases slots_remove w.threads id with hsame | ⟨i, hi, hslots⟩
  · rw [hsame]
    exact h
  · have hcases : ∀ {j t}, (w.threads.remove id).2.slots j = some t → w.threads.slots j = some t := by
      intro j t ht
      rw [hslots, update_apply] at ht
      split_ifs at ht
      exact ht
    refine ⟨fun j k t u hj hk ht hu hid => h.distinct hj hk (hcases ht) (hcases hu) hid,
      fun ⟨hj, t, ht, hid⟩ => h.old ⟨hj, t, hcases ht, hid⟩, fun hj ht hrun => h.running hj (hcases ht) hrun,
      fun {c} hc => ?_⟩
    obtain ⟨j, hj, t, ht, hid⟩ := h.current hc
    have hne : j ≠ i := by
      rintro rfl
      obtain ⟨-, u, hu, hid'⟩ := slotIndex_some hi
      cases ht.symm.trans hu
      exact hcur (by rw [← hid', hid]; exact hc)
    refine ⟨j, hj, t, ?_, hid⟩
    show (w.threads.remove id).2.slots j = some t
    rw [hslots, update_of_ne hne, ht]

theorem inv_schedule : Inv (step w .schedule) := by
  rw [step]
  refine h.congr (schedule_ids w.threads w.current) rfl (fun hi ht hrun => ?_) fun {id} hc => ?_
  · show (schedule w.threads w.current).1.or w.current = _
    rw [schedule_running h.distinct (fun _ _ => h.running) hi ht hrun, Option.some_or]
  · rcases Option.or_eq_some_iff.1 hc with hpick | ⟨-, hcur⟩
    · obtain ⟨t, hget, -⟩ := schedule_pick h.distinct hpick
      obtain ⟨i, -, hi, ht, hid⟩ := get_some hget
      have hp : Placed { w with threads := (schedule w.threads w.current).2 } id i := ⟨hi, t, ht, hid⟩
      exact ⟨i, (placed_congr (schedule_ids w.threads w.current)).1 hp⟩
    · exact h.current hcur

/-- **Step.** Whatever is done, at most the current thread runs. -/
theorem inv_step (op : Op) : Inv (step w op) := by
  cases op with
  | schedule => exact inv_schedule h
  | sleep id => exact inv_sleep h id
  | block id => exact inv_block h id
  | wake id => exact inv_wake h id
  | add pid => exact inv_add h pid
  | remove id => exact inv_remove h id

end

theorem inv_boot : Inv boot := ⟨nofun, nofun, nofun, nofun⟩

/-! ## The window of a waiting thread -/

/-- nobody moves: a thread that was handed out before is in the slot it was in -/
theorem placed_step (op : Op) (hold : id < w.nextId) (hp : Placed (step w op) id i) : Placed w id i := by
  cases op with
  | schedule => exact (placed_congr (schedule_ids w.threads w.current)).1 hp
  | sleep k => exact (placed_congr (withThreadMut_ids (f := Thread.setState .sleeping) (fun _ => rfl) k)).1 hp
  | block k => exact (placed_congr (withThreadMut_ids (f := Thread.setState .blocked) (fun _ => rfl) k)).1 hp
  | wake k => exact (placed_congr (withThreadMut_ids Thread.woken_id k)).1 hp
  | add pid =>
    obtain ⟨hi, t, ht, hid⟩ := hp
    have ht : (w.threads.push (Thread.new w.nextId pid)).2.slots i = some t := ht
    rcases slots_push w.threads (Thread.new w.nextId pid) with hsame | ⟨j, -, -, hslots⟩
    · rw [hsame] at ht
      exact ⟨hi, t, ht, hid⟩
    · rw [hslots, update_apply] at ht
      split_ifs at ht with hne
      · cases ht
        exact absurd hid hold.ne'
      · exact ⟨hi, t, ht, hid⟩
  | remove k =>
    rw [step] at hp
    split_ifs at hp
    · exact hp
    obtain ⟨hi, t, ht, hid⟩ := hp
    have ht : (w.threads.remove k).2.slots i = some t := ht
    rcases slots_remove w.threads k with hsame | ⟨j, -, hslots⟩
    · rw [hsame] at ht
      exact ⟨hi, t, ht, hid⟩
    · rw [hslots, update_apply] at ht
      split_ifs at ht
      exact ⟨hi, t, ht, hid⟩

theorem nextId_step (w : World) (op : Op) : w.nextId ≤ (step w op).nextId := by
  cases op with
  | add pid => exact Nat.le_succ _
  | remove k =>
    rw [step]
    split_ifs
    · exact le_rfl
    · exact le_rfl
  | schedule | sleep | block | wake => exact le_rfl

theorem Ready.placed (h : Ready w id) : ∃ i, Placed w id i := by
  obtain ⟨t, ht, -⟩ := h
  obtain ⟨i, -, hi, hslot, hid⟩ := get_some ht
  exact ⟨i, hi, t, hslot, hid⟩

/-- thread `x` left slot `a` last and thread `y` waits in slot `b`: the current slot is `a` or lies between the two -/
structure Window (x y a b : ℕ) (w : World) : Prop where
  inv : Inv w
  left : x < w.nextId ∧ ∀ {i}, Placed w x i → i = a
  waits : Placed w y b
  apart : a < maxThreads ∧ b ≠ a
  between : ∃ c cur, w.current = some cur ∧ Placed w cur c ∧ (c = a ∨ distance a c < distance a b)

/-- a slot between the current one and that of `y` is before that of `y` -/
theorem distance_le {c : ℕ} (ha : a < maxThreads) (hb : b < maxThreads) (hc : c < maxThreads) (hi : i < maxThreads)
    (hbetween : c = a ∨ distance a c < distance a b) (hnear : distance c i ≤ distance c b) :
    distance a i ≤ distance a b := by
  unfold distance at *
  unfold maxThreads at *
  omega

theorem distance_injective {j : ℕ} (ha : a < maxThreads) (hi : i < maxThreads) (hj : j < maxThreads)
    (h : distance a i = distance a j) : i = j := by
  unfold distance at h
  unfold maxThreads at *
  omega

/-- a ready thread is ready after the current one was settled -/
theorem Ready.settled (h : Ready w y) (hw : Inv w) (hb : Placed w y b) :
    ∃ t, (settle w.threads w.current).slots b = some t ∧ t.state = .ready := by
  obtain ⟨t, hget, hready⟩ := h
  obtain ⟨i, -, hi, ht, hid⟩ := get_some hget
  obtain rfl : i = b := hw.placed_unique ⟨hi, t, ht, hid⟩ hb
  have hids := settle_ids w.threads w.current i
  rw [ht] at hids
  obtain ⟨u, hu, -⟩ := Option.map_eq_some_iff.1 hids
  refine ⟨u, hu, ?_⟩
  obtain ⟨v, hv, -, rfl | ⟨-, -, rfl⟩⟩ := settle_slots hu
  · cases hv.symm.trans ht
    exact hready
  · rfl

/-- what `schedule` picks while `y` is ready: `y`, or a thread in a slot before that of `y` -/
theorem Window.pick (h : Window x y a b w) (hy : Ready w y) :
    ∃ id i, (schedule w.threads w.current).1 = some id ∧ Placed w id i ∧ distance a i ≤ distance a b := by
  obtain ⟨c, cur, hcur, ⟨hc, u, hu, hid⟩, hbetween⟩ := h.between
  obtain ⟨t, ht, hready⟩ := hy.settled h.inv h.waits
  rcases schedule_cases w.threads w.current with ⟨-, hnone⟩ | ⟨i, s, hpeek, hi, hs, -, hpick⟩
  · exact absurd hready (hnone b t h.waits.1 ht)
  · obtain ⟨v, hv, hvid, -⟩ := settle_slots hs
    have hstart : (settle w.threads w.current).slotIndex cur = some c := by
      rw [slotIndex_congr (settle_ids w.threads w.current), ← hid]
      exact h.inv.distinct.slotIndex hc hu
    rw [hcur] at hpeek hstart ht
    have hnear := peekNextAfter_nearest hstart hpeek h.waits.1 ht hready
    refine ⟨s.id, i, by rw [hpick], ⟨hi, v, hv, hvid⟩, ?_⟩
    exact distance_le h.apart.1 h.waits.1 hc hi hbetween hnear

/-- **Window.** Until `y` is picked, `x` is not, and the current slot stays between the two. -/
theorem window_step (h : Window x y a b w) (op : Op) (hy : Ready w y) (hnext : Ready (step w op) y)
    (hpick : picked w op ≠ some y) : Window x y a b (step w op) := by
  have hinv := inv_step h.inv op
  have hleft : x < (step w op).nextId ∧ ∀ {i}, Placed (step w op) x i → i = a :=
    ⟨lt_of_lt_of_le h.left.1 (nextId_step w op), fun hp => h.left.2 (placed_step op h.left.1 hp)⟩
  have hwaits : Placed (step w op) y b := by
    obtain ⟨i, hi⟩ := hnext.placed
    obtain rfl := h.inv.placed_unique (placed_step op (h.inv.old h.waits) hi) h.waits
    exact hi
  refine ⟨hinv, hleft, hwaits, h.apart, ?_⟩
  obtain ⟨c, cur, hcur, hc, hbetween⟩ := h.between
  -- the current thread is where it was unless `schedule` picked another one
  have hsame : (step w op).current = some cur → ∃ c cur, (step w op).current = some cur ∧
      Placed (step w op) cur c ∧ (c = a ∨ distance a c < distance a b) := by
    intro hcur'
    obtain ⟨i, hi⟩ := hinv.current hcur'
    obtain rfl := h.inv.placed_unique (placed_step op (h.inv.old hc) hi) hc
    exact ⟨i, cur, hcur', hi, hbetween⟩
  cases op with
  | sleep | block | wake | add => exact hsame hcur
  | remove id =>
    refine hsame ?_
    rw [step]
    split_ifs
    · exact hcur
    · exact hcur
  | schedule =>
    obtain ⟨id, i, hid, hi, hle⟩ := h.pick hy
    have hne : i ≠ b := by
      rintro rfl
      obtain ⟨-, t, ht, htid⟩ := hi
      obtain ⟨-, u, hu, huid⟩ := h.waits
      cases ht.symm.trans hu
      refine hpick ?_
      show (schedule w.threads w.current).1 = some y
      rw [hid, ← htid, huid]
    have hlt : distance a i < distance a b :=
      lt_of_le_of_ne hle fun he => hne (distance_injective h.apart.1 hi.1 h.waits.1 he)
    refine ⟨i, id, ?_, (placed_congr (schedule_ids w.threads w.current)).2 hi, .inr hlt⟩
    show (schedule w.threads w.current).1.or w.current = some id
    rw [hid, Option.some_or]

/-- the window after a run in which `y` was ready all the time and not picked -/
theorem window_run (ops : List Op) (h : Window x y a b w)
    (hready : ∀ k, y ∉ picks w (ops.take k) → Ready (run step w (ops.take k)) y) (hy : y ∉ picks w ops) :
    Window x y a b (run step w ops) := by
  induction ops generalizing w with
  | nil => exact h
  | cons op ops ih =>
    have hsplit : y ∉ (picked w op).toList ∧ y ∉ picks (step w op) ops := by
      rw [picks, List.mem_append, not_or] at hy
      exact hy
    have hpick : picked w op ≠ some y := fun he => hsplit.1 (by rw [he]; exact List.mem_singleton_self y)
    have hafter : ∀ k, y ∉ picks (step w op) (ops.take k) → Ready (run step (step w op) (ops.take k)) y := by
      intro k hk
      refine hready (k + 1) ?_
      rw [List.take_succ_cons, picks, List.mem_append, not_or]
      exact ⟨hsplit.1, hk⟩
    have hnow : Ready w y := hready 0 (by rw [List.take_zero]; exact List.not_mem_nil)
    exact ih (window_step h op hnow (hafter 0 (by rw [List.take_zero]; exact List.not_mem_nil)) hpick) hafter hsplit.2

/-! ## The result -/

/-- the current thread after a pick is in a slot, and any other ready thread waits -/
theorem window_of_pick (h : Inv w) (hx : (schedule w.threads w.current).1 = some x) (hne : y ≠ x)
    (hy : Ready (step w .schedule) y) : ∃ a b, Window x y a b (step w .schedule) := by
  have hinv := inv_step h .schedule
  have hcur : (step w .schedule).current = some x := by
    show (schedule w.threads w.current).1.or w.current = some x
    rw [hx, Option.some_or]
  obtain ⟨a, ha⟩ := hinv.current hcur
  obtain ⟨b, hb⟩ := hy.placed
  have hab : b ≠ a := by
    rintro rfl
    obtain ⟨-, t, ht, hid⟩ := ha
    obtain ⟨-, u, hu, hid'⟩ := hb
    cases ht.symm.trans hu
    exact hne (hid'.symm.trans hid)
  exact ⟨a, b, hinv, ⟨hinv.old ha, fun hp => hinv.placed_unique hp ha⟩, hb, ⟨ha.1, hab⟩, a, x, hcur, ha, .inl rfl⟩

/-- in a window `x` is not picked -/
theorem Window.not_picked (h : Window x y a b w) (hy : Ready w y) : (schedule w.threads w.current).1 ≠ some x := by
  intro hx
  obtain ⟨id, i, hid, hi, hle⟩ := h.pick hy
  cases hid.symm.trans hx
  obtain rfl := h.left.2 hi
  -- slot `a` itself is the last one of its cycle
  refine h.apart.2 (distance_injective h.apart.1 h.waits.1 h.apart.1 (le_antisymm ?_ hle))
  have hb := h.waits.1
  have ha := h.apart.1
  unfold distance
  unfold maxThreads at *
  omega

/-- without a pick nobody is ready or running -/
theorem idle_of_none (h : Inv w) (hnone : (schedule w.threads w.current).1 = none) {t : Thread}
    (hi : i < maxThreads) (ht : w.threads.slots i = some t) : t.state ≠ .ready ∧ t.state ≠ .running := by
  have hids := settle_ids w.threads w.current i
  rw [ht] at hids
  obtain ⟨u, hu, -⟩ := Option.map_eq_some_iff.1 hids
  have hready : u.state ≠ .ready := by
    rcases schedule_cases w.threads w.current with ⟨-, hno⟩ | ⟨j, s, -, -, -, -, hpick⟩
    · exact hno i u hi hu
    · rw [hpick] at hnone
      cases hnone
  have hrun := settle_not_running h.distinct (fun _ _ => h.running) hi hu
  obtain ⟨v, hv, -, rfl | ⟨-, -, rfl⟩⟩ := settle_slots hu
  · cases hv.symm.trans ht
    exact ⟨hready, hrun⟩
  · exact absurd rfl hready

/-- **Round robin.** In every run from boot: `schedule` finds nothing only when no thread is ready or running, at most one
thread is running, and between two picks of `x` every other thread that was ready until it was picked was picked. -/
theorem round_robin (ops : List Op) :
    ((schedule (run step boot ops).threads (run step boot ops).current).1 = none →
      ∀ i t, i < maxThreads → (run step boot ops).threads.slots i = some t → t.state ≠ .ready ∧ t.state ≠ .running) ∧
    (∀ i j t u, i < maxThreads → j < maxThreads → (run step boot ops).threads.slots i = some t →
      (run step boot ops).threads.slots j = some u → t.state = .running → u.state = .running → i = j) ∧
    ∀ (mid : List Op) (x y : ℕ), y ≠ x → picked (run step boot ops) .schedule = some x →
      picked (run step (step (run step boot ops) .schedule) mid) .schedule = some x →
      (∀ k, y ∉ picks (step (run step boot ops) .schedule) (mid.take k) →
        Ready (run step (step (run step boot ops) .schedule) (mid.take k)) y) →
      y ∈ picks (step (run step boot ops) .schedule) mid := by
  have h : Inv (run step boot ops) := inv_run (I := Inv) (fun _ op hw => inv_step hw op) boot ops inv_boot
  generalize run step boot ops = w at h
  refine ⟨fun hnone i t hi ht => ?_, fun i j t u hi hj ht hu htr hur => ?_, fun mid x y hne hx hx' hready => ?_⟩
  · exact idle_of_none h hnone hi ht
  · have hid := (h.running hi ht htr).symm.trans (h.running hj hu hur)
    exact h.distinct hi hj ht hu (Option.some.inj hid)
  · by_contra hy
    have hstart : Ready (step w .schedule) y := hready 0 (by rw [List.take_zero]; exact List.not_mem_nil)
    obtain ⟨a, b, hwindow⟩ := window_of_pick h hx hne hstart
    have hend : Ready (run step (step w .schedule) mid) y := by
      have := hready mid.length
      rw [List.take_length] at this
      exact this hy
    exact (window_run mid hwindow hready hy).not_picked hend hx'

/-- two threads: the second has its turn between two turns of the first -/
theorem round_robin_two : 2 ∈ picks (step (run step boot [.add 0, .add 0]) .schedule) [.schedule] := by
  refine (round_robin [.add 0, .add 0]).2.2 [.schedule] 1 2 (by decide) (by decide +kernel) (by decide +kernel) ?_
  intro k hk
  cases k with
  | zero => exact ⟨Thread.new 2 0, by decide +kernel, rfl⟩
  | succ k =>
    refine absurd ?_ hk
    rw [List.take_succ_cons, List.take_nil]
    decide +kernel

end SwiftCore.Task.RoundRobin
