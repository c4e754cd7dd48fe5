/-
Lean model of the scheduler (core/task/scheduler.rs) over the thread table (core/task/thread.rs): `maxThreads` slots, each
free or occupied by one thread with its state and its flags.

`Threads` differs from `ThreadQueue` in what it keeps of a thread: ids for the mailboxes there, states and flags here.
- `get_withThreadMut`: a change of one thread, as seen by lookups.
- `schedule_cases`: `schedule` makes a ready thread run, or no thread is ready; `peekNextAfter_nearest`: it is the first
  ready one behind the current slot.
-/
import SwiftCore.Lib.SlotTable
import SwiftCore.Task.ThreadQueue

namespace SwiftCore.Task

open Function

inductive ThreadState
  | ready | running | blocked | sleeping | terminated
deriving DecidableEq, Repr

/-- what scheduling and waiting use of a thread -/
structure Thread where
  id : ℕ
  processId : ℕ
  state : ThreadState
  pendingWakeup : Bool
  futexTimedOut : Bool
deriving DecidableEq, Repr

/-- a thread as it is created -/
def Thread.new (id processId : ℕ) : Thread := ⟨id, processId, .ready, false, false⟩

def Thread.setState (state : ThreadState) (t : Thread) : Thread := { t with state }

/-- `THREAD_QUEUE` -/
structure Threads where
  slots : ℕ → Option Thread
  count : ℕ

namespace Threads

def new : Threads := ⟨fun _ => none, 0⟩

variable (q : Threads)

def push (t : Thread) : Option ℕ × Threads :=
  if maxThreads ≤ q.count then (none, q)
  else
    match SlotTable.firstFree 0 maxThreads q.slots with
    | none => (none, q)
    | some i => (some t.id, ⟨update q.slots i (some t), q.count + 1⟩)

def slotIndex (id : ℕ) : Option ℕ := SlotTable.firstSlot 0 maxThreads (fun t => t.id = id) q.slots

def get (id : ℕ) : Option Thread := (q.slotIndex id).bind q.slots

/-- a change of the thread in one slot -/
def modifySlot (i : ℕ) (f : Thread → Thread) : Threads :=
  { q with slots := update q.slots i ((q.slots i).map f) }

/-- `with_thread_mut` -/
def withThreadMut (id : ℕ) (f : Thread → Thread) : Threads :=
  match q.slotIndex id with
  | none => q
  | some i => q.modifySlot i f

def remove (id : ℕ) : Option Thread × Threads :=
  match q.slotIndex id with
  | none => (none, q)
  | some i => (q.slots i, ⟨update q.slots i none, q.count - 1⟩)

/-- `peek_next_mut`, as a slot -/
def peekNext : Option ℕ := SlotTable.firstSlot 0 maxThreads (fun t => t.state = .ready) q.slots

/-- the slots behind `start` to the end, then from the beginning to `start` -/
def cycle (start : ℕ) : List ℕ := List.range' (start + 1) (maxThreads - (start + 1)) ++ List.range (start + 1)

/-- the first ready thread of the cycle -/
def peekCycle (start : ℕ) : Option ℕ :=
  (cycle start).find? fun i => (q.slots i).any fun t => t.state = .ready

/-- `peek_next_after`, as a slot -/
def peekNextAfter (current : Option ℕ) : Option ℕ :=
  match current.bind q.slotIndex with
  | none => q.peekNext
  | some start => (q.peekCycle start).or q.peekNext

end Threads

/-! ## Scheduling -/

variable (q : Threads)

/-- the first step of `schedule`: the current thread is no longer running -/
def settle (current : Option ℕ) : Threads :=
  match current with
  | none => q
  | some id => q.withThreadMut id fun t => if t.state = .running then t.setState .ready else t

/-- `schedule`: the thread to run next -/
def schedule (current : Option ℕ) : Option ℕ × Threads :=
  let q := settle q current
  match q.peekNextAfter current with
  | none => (none, q)
  | some i => ((q.slots i).map Thread.id, q.modifySlot i (Thread.setState .running))

/-- `sleep_thread` -/
def sleepThread (id : ℕ) : Threads := q.withThreadMut id (Thread.setState .sleeping)

/-- the state that `block_current_thread` sets -/
def blockThread (id : ℕ) : Threads := q.withThreadMut id (Thread.setState .blocked)

/-- what `wake_thread` does to its thread: one that does not sleep yet keeps a note, one that runs does not -/
def Thread.woken (t : Thread) : Thread :=
  match t.state with
  | .sleeping | .blocked => t.setState .ready
  | .ready => { t with pendingWakeup := true }
  | .running | .terminated => t

def wakeThread (id : ℕ) : Threads := q.withThreadMut id Thread.woken

/-- `sleep_thread_unless_woken`; the answer is whether the thread went to sleep -/
def sleepThreadUnlessWoken (id : ℕ) : Bool × Threads :=
  match q.get id with
  | none => (false, q)
  | some t =>
    if t.pendingWakeup then (false, q.withThreadMut id fun t => { t with pendingWakeup := false })
    else (true, sleepThread q id)

/-! ## Lookups -/

namespace Threads

variable {q : Threads}

variable {id i start : ℕ} {t : Thread} {q' : Threads} {f : Thread → Thread}

theorem slotIndex_some (h : q.slotIndex id = some i) : i < maxThreads ∧ ∃ t, q.slots i = some t ∧ t.id = id := by
  obtain ⟨-, hi, t, ht, hid⟩ := SlotTable.firstSlot_some h
  exact ⟨hi, t, ht, by simpa using hid⟩

/-- a slot holds one thread -/
theorem slotIndex_inj {id' : ℕ} (h : q.slotIndex id = some i) (h' : q.slotIndex id' = some i) : id = id' := by
  obtain ⟨-, t, ht, hid⟩ := slotIndex_some h
  obtain ⟨-, u, hu, hid'⟩ := slotIndex_some h'
  cases ht.symm.trans hu
  exact hid.symm.trans hid'

theorem get_some (h : q.get id = some t) :
    ∃ i, q.slotIndex id = some i ∧ i < maxThreads ∧ q.slots i = some t ∧ t.id = id := by
  obtain ⟨i, hi, ht⟩ := Option.bind_eq_some_iff.1 h
  obtain ⟨hlt, u, hu, hid⟩ := slotIndex_some hi
  cases ht.symm.trans hu
  exact ⟨i, hi, hlt, ht, hid⟩

/-- lookups go by ids alone -/
theorem slotIndex_congr (h : ∀ i, (q'.slots i).map Thread.id = (q.slots i).map Thread.id) (id : ℕ) :
    q'.slotIndex id = q.slotIndex id := by
  apply SlotTable.firstSlot_congr
  intro i _ _
  have hi := h i
  cases hq : q.slots i with
  | none =>
    rw [hq] at hi
    rw [Option.map_eq_none_iff.1 hi]
  | some t =>
    rw [hq] at hi
    obtain ⟨u, hu, hid⟩ := Option.map_eq_some_iff.1 hi
    rw [hu, Option.any_some, Option.any_some, hid]

section

variable (hf : ∀ t, (f t).id = t.id)

include hf

theorem modifySlot_ids (i j : ℕ) : ((q.modifySlot i f).slots j).map Thread.id = (q.slots j).map Thread.id := by
  show (update q.slots i _ j).map Thread.id = _
  rcases eq_or_ne j i with rfl | hj
  · rw [update_self, Option.map_map]
    congr 1
    funext t
    exact hf t
  · rw [update_of_ne hj]

theorem slotIndex_modifySlot (i id : ℕ) :
    (q.modifySlot i f).slotIndex id = q.slotIndex id := slotIndex_congr (modifySlot_ids hf i) id

theorem slotIndex_withThreadMut (id id' : ℕ) : (q.withThreadMut id f).slotIndex id' = q.slotIndex id' := by
  unfold withThreadMut
  cases q.slotIndex id with
  | none => rfl
  | some i => exact slotIndex_modifySlot hf i id'

/-- **Frame.** A change of one thread is seen by lookups of that thread and by no other. -/
theorem get_withThreadMut (id id' : ℕ) :
    (q.withThreadMut id f).get id' = if id' = id then (q.get id').map f else q.get id' := by
  unfold get
  rw [slotIndex_withThreadMut hf]
  unfold withThreadMut
  cases hi : q.slotIndex id with
  | none =>
    split_ifs with h
    · subst h
      rw [hi]
      rfl
    · rfl
  | some i =>
    cases hj : q.slotIndex id' with
    | none => split_ifs <;> rfl
    | some j =>
      show update q.slots i ((q.slots i).map f) j = if id' = id then (q.slots j).map f else q.slots j
      split_ifs with h
      · subst h
        cases hi.symm.trans hj
        rw [update_self]
      · have hne : j ≠ i := by
          rintro rfl
          exact h (slotIndex_inj hj hi)
        rw [update_of_ne hne]

end

/-- removing a thread is not seen by lookups of others -/
theorem get_remove {r : ℕ} (hne : r ≠ id) : (q.remove id).2.get r = q.get r := by
  unfold remove
  cases hi : q.slotIndex id with
  | none => rfl
  | some i =>
    obtain ⟨-, t, ht, hid⟩ := slotIndex_some hi
    have hslot : ∀ j, (update q.slots i none j).any (fun t => t.id = r) = (q.slots j).any fun t => t.id = r := by
      intro j
      rcases eq_or_ne j i with rfl | hj
      · rw [update_self, ht]
        simp [hid, Ne.symm hne]
      · rw [update_of_ne hj]
    have hindex : (⟨update q.slots i none, q.count - 1⟩ : Threads).slotIndex r = q.slotIndex r :=
      SlotTable.firstSlot_congr fun j _ _ => hslot j
    unfold get
    rw [hindex]
    cases hr : q.slotIndex r with
    | none => rfl
    | some j =>
      have hji : j ≠ i := by
        rintro rfl
        exact hne (slotIndex_inj hr hi)
      exact update_of_ne hji none q.slots

/-- `push` leaves every slot alone but a free one -/
theorem slots_push (q : Threads) (t : Thread) : (q.push t).2 = q ∨
    ∃ i, i < maxThreads ∧ q.slots i = none ∧ (q.push t).2.slots = update q.slots i (some t) := by
  unfold push
  split_ifs
  · exact .inl rfl
  · cases hfree : SlotTable.firstFree 0 maxThreads q.slots with
    | none => exact .inl rfl
    | some i =>
      obtain ⟨-, hi, hnone⟩ := SlotTable.firstFree_some hfree
      exact .inr ⟨i, hi, hnone, rfl⟩

/-- `remove` empties one slot at most -/
theorem slots_remove (q : Threads) (id : ℕ) : (q.remove id).2 = q ∨
    ∃ i, q.slotIndex id = some i ∧ (q.remove id).2.slots = update q.slots i none := by
  unfold remove
  cases q.slotIndex id with
  | none => exact .inl rfl
  | some i => exact .inr ⟨i, rfl, rfl⟩

/-- a thread with this id is in the table -/
def Present (q : Threads) (id : ℕ) : Prop := ∃ i, i < maxThreads ∧ (q.slots i).map Thread.id = some id

theorem Present.congr (h : q.Present id)
    (hids : ∀ i, (q'.slots i).map Thread.id = (q.slots i).map Thread.id) : q'.Present id := by
  obtain ⟨i, hi, hid⟩ := h
  exact ⟨i, hi, (hids i).trans hid⟩

theorem Present.push (h : q.Present id) (t : Thread) : (q.push t).2.Present id := by
  obtain ⟨i, hi, hid⟩ := h
  rcases slots_push q t with hsame | ⟨j, -, hfree, hslots⟩
  · rw [hsame]
    exact ⟨i, hi, hid⟩
  · have hne : i ≠ j := by
      rintro rfl
      rw [hfree] at hid
      cases hid
    exact ⟨i, hi, by rw [hslots, update_of_ne hne, hid]⟩

theorem Present.remove {r : ℕ} (h : q.Present id) (hne : id ≠ r) : (q.remove r).2.Present id := by
  obtain ⟨i, hi, hid⟩ := h
  rcases slots_remove q r with hsame | ⟨j, hj, hslots⟩
  · rw [hsame]
    exact ⟨i, hi, hid⟩
  · obtain ⟨-, t, ht, hr⟩ := slotIndex_some hj
    have hij : i ≠ j := by
      rintro rfl
      rw [ht] at hid
      exact hne ((Option.some.inj hid).symm.trans hr)
    exact ⟨i, hi, by rw [hslots, update_of_ne hij, hid]⟩

theorem Present.slotIndex (h : q.Present id) : ∃ i, q.slotIndex id = some i := by
  obtain ⟨i, hi, hid⟩ := h
  obtain ⟨t, ht, rfl⟩ := Option.map_eq_some_iff.1 hid
  cases hnone : q.slotIndex t.id with
  | some j => exact ⟨j, rfl⟩
  | none =>
    have := SlotTable.firstSlot_eq_none.1 hnone i t (Nat.zero_le i) hi ht
    simp at this

/-- no two slots hold threads with one id -/
def Distinct (q : Threads) : Prop :=
  ∀ ⦃i j t u⦄, i < maxThreads → j < maxThreads → q.slots i = some t → q.slots j = some u → t.id = u.id → i = j

variable (h : q.Distinct)

include h

theorem Distinct.slotIndex (hi : i < maxThreads) (ht : q.slots i = some t) : q.slotIndex t.id = some i := by
  refine SlotTable.firstSlot_of_unique (Nat.zero_le i) hi ht (by simp) fun j u _ hj hu hid => ?_
  exact h hj hi hu ht (by simpa using hid)

theorem Distinct.get (hi : i < maxThreads) (ht : q.slots i = some t) : q.get t.id = some t := by
  unfold Threads.get
  rw [h.slotIndex hi ht]
  exact ht

/-- only the ids matter for it -/
theorem Distinct.congr (hids : ∀ i, (q'.slots i).map Thread.id = (q.slots i).map Thread.id) : q'.Distinct := by
  intro i j t u hi hj ht hu hid
  have hti := hids i
  have huj := hids j
  rw [ht] at hti
  rw [hu] at huj
  obtain ⟨t', ht', hid'⟩ := Option.map_eq_some_iff.1 hti.symm
  obtain ⟨u', hu', hid''⟩ := Option.map_eq_some_iff.1 huj.symm
  exact h hi hj ht' hu' (by rw [hid', hid'', hid])

theorem Distinct.push (hfresh : ¬ q.Present t.id) : (q.push t).2.Distinct := by
  rcases slots_push q t with hsame | ⟨k, -, -, hslots⟩
  · rw [hsame]
    exact h
  · have hcases : ∀ {i u}, i < maxThreads → (q.push t).2.slots i = some u →
        (i = k ∧ u = t) ∨ (q.slots i = some u ∧ u.id ≠ t.id) := by
      intro i u hi hu
      rw [hslots, update_apply] at hu
      split_ifs at hu with hik
      · exact .inl ⟨hik, (Option.some.inj hu).symm⟩
      · exact .inr ⟨hu, fun hid => hfresh ⟨i, hi, by rw [hu, Option.map_some, hid]⟩⟩
    intro i j a b hi hj ha hb hid
    rcases hcases hi ha with ⟨hik, rfl⟩ | ⟨ha', hne⟩ <;> rcases hcases hj hb with ⟨hjk, rfl⟩ | ⟨hb', hne'⟩
    · rw [hik, hjk]
    · exact absurd hid.symm hne'
    · exact absurd hid hne
    · exact h hi hj ha' hb' hid

theorem Distinct.remove (id : ℕ) : (q.remove id).2.Distinct := by
  rcases slots_remove q id with hsame | ⟨k, -, hslots⟩
  · rw [hsame]
    exact h
  · have hold : ∀ {i t}, (q.remove id).2.slots i = some t → q.slots i = some t := by
      intro i t ht
      rw [hslots, update_apply] at ht
      split_ifs at ht
      exact ht
    intro i j a b hi hj ha hb hid
    exact h hi hj (hold ha) (hold hb) hid

omit h

theorem withThreadMut_ids (hf : ∀ t, (f t).id = t.id) (id j : ℕ) :
    ((q.withThreadMut id f).slots j).map Thread.id = (q.slots j).map Thread.id := by
  unfold withThreadMut
  cases q.slotIndex id with
  | none => rfl
  | some i => exact modifySlot_ids hf i j

/-- a slot after a change of one thread -/
theorem slots_withThreadMut {j : ℕ} (h : (q.withThreadMut id f).slots j = some t) :
    q.slots j = some t ∨ ∃ u, q.slots j = some u ∧ u.id = id ∧ t = f u := by
  unfold withThreadMut at h
  cases hi : q.slotIndex id with
  | none =>
    rw [hi] at h
    exact .inl h
  | some i =>
    rw [hi] at h
    have h : update q.slots i ((q.slots i).map f) j = some t := h
    rw [update_apply] at h
    split_ifs at h with hj
    · subst hj
      obtain ⟨u, hu, rfl⟩ := Option.map_eq_some_iff.1 h
      obtain ⟨-, v, hv, hid⟩ := slotIndex_some hi
      cases hu.symm.trans hv
      exact .inr ⟨u, hu, hid, rfl⟩
    · exact .inl h

/-! ## The cycle -/

/-- how many slots the search passes before slot `i` -/
def distance (start i : ℕ) : ℕ := (i + maxThreads - (start + 1)) % maxThreads

theorem cycle_eq (hs : start < maxThreads) :
    cycle start = (List.range maxThreads).map fun k => (start + 1 + k) % maxThreads := by
  apply List.ext_getElem
  · simp only [cycle, List.length_append, List.length_range', List.length_range, List.length_map]
    omega
  · intro k hk hk'
    simp only [List.length_map, List.length_range] at hk'
    simp only [cycle, List.getElem_map, List.getElem_range]
    by_cases hlt : k < maxThreads - (start + 1)
    · rw [List.getElem_append_left (by simpa using hlt), List.getElem_range', Nat.one_mul,
        Nat.mod_eq_of_lt (by omega)]
    · rw [List.getElem_append_right (by simpa using hlt), List.getElem_range, List.length_range']
      have hwrap : start + 1 + k = k - (maxThreads - (start + 1)) + maxThreads := by omega
      rw [hwrap, Nat.add_mod_right, Nat.mod_eq_of_lt (by omega)]

/-- the slot found in the cycle is ready, and so is none that the search passes -/
theorem peekCycle_some (hs : start < maxThreads) (h : q.peekCycle start = some i) :
    i < maxThreads ∧ (∃ t, q.slots i = some t ∧ t.state = .ready) ∧
      ∀ j t, j < maxThreads → q.slots j = some t → t.state = .ready → distance start i ≤ distance start j := by
  unfold peekCycle at h
  rw [cycle_eq hs, List.find?_map] at h
  obtain ⟨k, hk, rfl⟩ := Option.map_eq_some_iff.1 h
  obtain ⟨hready, hmem, hbefore⟩ := List.find?_range_eq_some.1 hk
  have hklt : k < maxThreads := List.mem_range.1 hmem
  refine ⟨Nat.mod_lt _ (by decide), ?_, fun j t hj ht hstate => ?_⟩
  · obtain ⟨t, ht, hstate⟩ := (Option.any_eq_true _ _).1 hready
    exact ⟨t, ht, by simpa using hstate⟩
  · have hdist : distance start ((start + 1 + k) % maxThreads) = k := by
      unfold distance
      unfold maxThreads at *
      omega
    rw [hdist]
    by_contra hlt
    have hj' : (start + 1 + distance start j) % maxThreads = j := by
      unfold distance
      unfold maxThreads at *
      omega
    have hno := hbefore (distance start j) (not_le.1 hlt)
    simp [hj', ht, hstate] at hno

theorem peekCycle_none (hs : start < maxThreads) (h : q.peekCycle start = none)
    (hi : i < maxThreads) (ht : q.slots i = some t) : t.state ≠ .ready := by
  intro hstate
  unfold peekCycle at h
  rw [cycle_eq hs, List.find?_eq_none] at h
  have hmem : i ∈ (List.range maxThreads).map fun k => (start + 1 + k) % maxThreads := by
    refine List.mem_map.2 ⟨distance start i, List.mem_range.2 (Nat.mod_lt _ (by decide)), ?_⟩
    unfold distance
    unfold maxThreads at *
    omega
  exact h i hmem (by simp [ht, hstate])

/-- the slot that `peek_next_after` finds is ready -/
theorem peekNextAfter_some {current : Option ℕ} (h : q.peekNextAfter current = some i) :
    i < maxThreads ∧ ∃ t, q.slots i = some t ∧ t.state = .ready := by
  have hfirst : q.peekNext = some i → i < maxThreads ∧ ∃ t, q.slots i = some t ∧ t.state = .ready := fun h => by
    obtain ⟨-, hi, t, ht, hstate⟩ := SlotTable.firstSlot_some h
    exact ⟨hi, t, ht, by simpa using hstate⟩
  unfold peekNextAfter at h
  cases hs : current.bind q.slotIndex with
  | none =>
    rw [hs] at h
    exact hfirst h
  | some start =>
    rw [hs] at h
    obtain ⟨id, -, hid⟩ := Option.bind_eq_some_iff.1 hs
    rcases Option.or_eq_some_iff.1 h with h | ⟨-, h⟩
    · obtain ⟨hi, hready, -⟩ := peekCycle_some (slotIndex_some hid).1 h
      exact ⟨hi, hready⟩
    · exact hfirst h

/-- when it finds none, no slot is ready -/
theorem peekNextAfter_none {current : Option ℕ} (h : q.peekNextAfter current = none)
    (hi : i < maxThreads) (ht : q.slots i = some t) : t.state ≠ .ready := by
  have hfirst : q.peekNext = none := by
    unfold peekNextAfter at h
    generalize current.bind q.slotIndex = r at h ⊢
    cases r with
    | none => exact h
    | some start => exact (Option.or_eq_none_iff.1 h).2
  have hno := SlotTable.firstSlot_eq_none.1 hfirst i t (Nat.zero_le i) hi ht
  simpa using hno

/-- it is the first ready slot behind the current one -/
theorem peekNextAfter_nearest (hs : q.slotIndex id = some start)
    (h : q.peekNextAfter (some id) = some i) {j : ℕ} (hj : j < maxThreads) (ht : q.slots j = some t)
    (hready : t.state = .ready) : distance start i ≤ distance start j := by
  unfold peekNextAfter at h
  rw [Option.bind_some, hs] at h
  rcases Option.or_eq_some_iff.1 h with h | ⟨hnone, -⟩
  · exact (peekCycle_some (slotIndex_some hs).1 h).2.2 j t hj ht hready
  · exact absurd hready (peekCycle_none (slotIndex_some hs).1 hnone hj ht)

end Threads

/-! ## What schedule does -/

open Threads

variable {q : Threads}

theorem settle_ids (q : Threads) (current : Option ℕ) (i : ℕ) :
    ((settle q current).slots i).map Thread.id = (q.slots i).map Thread.id := by
  cases current with
  | none => rfl
  | some id => exact withThreadMut_ids (fun t => by split_ifs <;> rfl) id i

/-- **Pick.** `schedule` leaves the current thread ready and makes a ready thread run, or there is none. -/
theorem schedule_cases (q : Threads) (current : Option ℕ) :
    (schedule q current = (none, settle q current) ∧
      ∀ i t, i < maxThreads → (settle q current).slots i = some t → t.state ≠ .ready) ∨
    ∃ i t, (settle q current).peekNextAfter current = some i ∧ i < maxThreads ∧
      (settle q current).slots i = some t ∧ t.state = .ready ∧
      schedule q current = (some t.id, (settle q current).modifySlot i (Thread.setState .running)) := by
  unfold schedule
  cases h : (settle q current).peekNextAfter current with
  | none => exact .inl ⟨by simp only [h], fun i t hi ht => peekNextAfter_none h hi ht⟩
  | some i =>
    obtain ⟨hi, t, ht, hready⟩ := peekNextAfter_some h
    exact .inr ⟨i, t, rfl, hi, ht, hready, by simp [h, ht]⟩

/-- what a slot holds after the current thread was settled -/
theorem settle_slots {current : Option ℕ} {i : ℕ} {t : Thread} (h : (settle q current).slots i = some t) :
    ∃ u, q.slots i = some u ∧ u.id = t.id ∧
      (t = u ∨ current = some u.id ∧ u.state = .running ∧ t = u.setState .ready) := by
  cases current with
  | none => exact ⟨t, h, rfl, .inl rfl⟩
  | some id =>
    rcases slots_withThreadMut h with h | ⟨u, hu, rfl, rfl⟩
    · exact ⟨t, h, rfl, .inl rfl⟩
    · refine ⟨u, hu, ?_⟩
      split_ifs with hrun
      · exact ⟨rfl, .inr ⟨rfl, hrun, rfl⟩⟩
      · exact ⟨rfl, .inl rfl⟩

/-- when only the current thread runs, nobody runs after it was settled -/
theorem settle_not_running (hd : q.Distinct) {current : Option ℕ}
    (hrun : ∀ i t, i < maxThreads → q.slots i = some t → t.state = .running → current = some t.id) {i : ℕ} {t : Thread}
    (hi : i < maxThreads) (ht : (settle q current).slots i = some t) : t.state ≠ .running := by
  intro hstate
  obtain ⟨u, hu, -, rfl | ⟨-, -, rfl⟩⟩ := settle_slots ht
  · obtain rfl := hrun i t hi hu hstate
    have hslot : (settle q (some t.id)).slots i = some (t.setState .ready) := by
      show (q.withThreadMut t.id _).slots i = _
      unfold withThreadMut
      rw [hd.slotIndex hi hu]
      show update q.slots i _ i = _
      rw [update_self, hu, Option.map_some, if_pos hstate]
    rw [ht] at hslot
    have hready := congrArg Thread.state (Option.some.inj hslot)
    exact absurd (hstate.symm.trans hready) nofun
  · cases hstate

theorem schedule_ids (q : Threads) (current : Option ℕ) (i : ℕ) :
    ((schedule q current).2.slots i).map Thread.id = (q.slots i).map Thread.id := by
  rcases schedule_cases q current with ⟨h, -⟩ | ⟨j, t, -, -, -, -, h⟩
  · rw [h]
    exact settle_ids q current i
  · rw [h]
    exact (modifySlot_ids (f := Thread.setState .running) (fun _ => rfl) j i).trans (settle_ids q current i)

/-! ## What waking does -/

@[simp] theorem Thread.woken_id (t : Thread) : t.woken.id = t.id := by
  unfold Thread.woken
  cases t.state <;> rfl

/-- a woken thread is where it was, or ready -/
theorem Thread.woken_state (t : Thread) : t.woken.state = t.state ∨ t.woken.state = .ready := by
  unfold Thread.woken
  cases h : t.state <;> simp [Thread.setState, h]

theorem Thread.woken_not_sleeping (t : Thread) : t.woken.state ≠ .sleeping := by
  unfold Thread.woken
  cases h : t.state <;> simp [Thread.setState, h]

theorem Thread.woken_pendingWakeup {t : Thread} (h : t.pendingWakeup = true) : t.woken.pendingWakeup = true := by
  unfold Thread.woken
  cases t.state <;> first | exact h | rfl

/-- a thread that is not ready does not remember that it was woken -/
theorem Thread.woken_of_not_ready {t : Thread} (h : t.state ≠ .ready) : t.woken.pendingWakeup = t.pendingWakeup := by
  unfold Thread.woken
  cases hs : t.state with
  | ready => exact absurd hs h
  | running | blocked | sleeping | terminated => rfl

/-- a ready thread does -/
theorem Thread.woken_of_ready {t : Thread} (h : t.state = .ready) : t.woken = { t with pendingWakeup := true } := by
  unfold Thread.woken
  rw [h]

theorem get_wakeThread (q : Threads) (id r : ℕ) :
    (wakeThread q id).get r = if r = id then (q.get r).map Thread.woken else q.get r :=
  get_withThreadMut Thread.woken_id id r

theorem Threads.Present.schedule {id : ℕ} (h : q.Present id) (current : Option ℕ) : (schedule q current).2.Present id :=
  h.congr (schedule_ids q current)

/-- the thread picked is in the table -/
theorem schedule_present {current : Option ℕ} {id : ℕ} (h : (schedule q current).1 = some id) :
    (schedule q current).2.Present id := by
  rcases schedule_cases q current with ⟨hnone, -⟩ | ⟨i, t, -, hi, ht, -, hpick⟩
  · rw [hnone] at h
    cases h
  · rw [hpick] at h
    cases h
    refine ⟨i, hi, ?_⟩
    rw [schedule_ids, ← settle_ids q current, ht, Option.map_some]

/-- a thread that was terminated is not picked -/
theorem schedule_ne_terminated (hd : q.Distinct) {id next : ℕ}
    (h : (schedule (q.withThreadMut id (Thread.setState .terminated)) none).1 = some next) : next ≠ id := by
  rcases schedule_cases (q.withThreadMut id (Thread.setState .terminated)) none with
    ⟨hnone, -⟩ | ⟨i, t, -, hi, ht, hready, hpick⟩
  · rw [hnone] at h
    cases h
  · rw [hpick] at h
    cases h
    rintro rfl
    have hdist : (q.withThreadMut t.id (Thread.setState .terminated)).Distinct :=
      hd.congr (withThreadMut_ids (f := Thread.setState .terminated) (fun _ => rfl) t.id)
    have hget := hdist.get hi ht
    rw [get_withThreadMut (f := Thread.setState .terminated) (fun _ => rfl), if_pos rfl] at hget
    obtain ⟨u, -, rfl⟩ := Option.map_eq_some_iff.1 hget
    cases hready

/-! ## What scheduling keeps -/

/-- the same thread, perhaps with its turn begun or ended -/
structure Turned (t u : Thread) : Prop where
  id : u.id = t.id
  processId : u.processId = t.processId
  pendingWakeup : u.pendingWakeup = t.pendingWakeup
  futexTimedOut : u.futexTimedOut = t.futexTimedOut
  state : u.state = t.state ∨ (t.state = .ready ∨ t.state = .running) ∧ (u.state = .ready ∨ u.state = .running)

variable (current : Option ℕ)

theorem settle_turned {i : ℕ} {t : Thread} (ht : q.slots i = some t) :
    ∃ u, (settle q current).slots i = some u ∧ Turned t u := by
  have hids := settle_ids q current i
  rw [ht] at hids
  obtain ⟨u, hu, -⟩ := Option.map_eq_some_iff.1 hids
  obtain ⟨v, hv, -, rfl | ⟨-, hrun, rfl⟩⟩ := settle_slots hu
  · obtain rfl : u = t := Option.some.inj (hv.symm.trans ht)
    exact ⟨u, hu, rfl, rfl, rfl, rfl, .inl rfl⟩
  · cases hv.symm.trans ht
    exact ⟨_, hu, rfl, rfl, rfl, rfl, .inr ⟨.inr hrun, .inl rfl⟩⟩

/-- `schedule` changes nothing of a thread but its turn -/
theorem schedule_turned {i : ℕ} {t : Thread} (ht : q.slots i = some t) :
    ∃ u, (schedule q current).2.slots i = some u ∧ Turned t u := by
  obtain ⟨u, hu, hturn⟩ := settle_turned current ht
  rcases schedule_cases q current with ⟨h, -⟩ | ⟨j, v, -, -, hv, hready, h⟩
  · rw [h]
    exact ⟨u, hu, hturn⟩
  · rw [h]
    show ∃ u, update (settle q current).slots j _ i = some u ∧ Turned t u
    rcases eq_or_ne i j with rfl | hne
    · cases hu.symm.trans hv
      rw [update_self, hu, Option.map_some]
      refine ⟨_, rfl, hturn.id, hturn.processId, hturn.pendingWakeup, hturn.futexTimedOut, .inr ⟨?_, .inr rfl⟩⟩
      rcases hturn.state with hs | ⟨hs, -⟩
      · exact .inl (hs ▸ hready)
      · exact hs
    · rw [update_of_ne hne]
      exact ⟨u, hu, hturn⟩

theorem get_schedule {id : ℕ} {t : Thread} (h : q.get id = some t) :
    ∃ u, (schedule q current).2.get id = some u ∧ Turned t u := by
  obtain ⟨i, hi, -, ht, -⟩ := get_some h
  obtain ⟨u, hu, hturn⟩ := schedule_turned current ht
  refine ⟨u, ?_, hturn⟩
  unfold Threads.get
  rw [slotIndex_congr (schedule_ids q current), hi]
  exact hu

variable {u : Thread}

theorem Turned.asleep {t : Thread} (h : Turned t u) (hs : u.state = .sleeping) : t.state = .sleeping := by
  rcases h.state with he | ⟨-, he | he⟩
  · exact he.symm.trans hs
  · exact absurd (he.symm.trans hs) nofun
  · exact absurd (he.symm.trans hs) nofun

/-- a thread that sleeps afterwards slept before -/
theorem asleep_of_schedule {current : Option ℕ} {id : ℕ} (h : (schedule q current).2.get id = some u)
    (hs : u.state = .sleeping) : ∃ t, q.get id = some t ∧ t.state = .sleeping := by
  obtain ⟨i, hi, -, -, -⟩ := get_some h
  rw [slotIndex_congr (schedule_ids q current)] at hi
  obtain ⟨-, t, ht, -⟩ := slotIndex_some hi
  have hget : q.get id = some t := by rw [Threads.get, hi, Option.bind_some, ht]
  obtain ⟨u', hu', hturn⟩ := get_schedule current hget
  cases h.symm.trans hu'
  exact ⟨t, hget, hturn.asleep hs⟩

/-- when only the current thread runs, only the pick runs afterwards -/
theorem schedule_running (hd : q.Distinct) {current : Option ℕ}
    (hrun : ∀ i t, i < maxThreads → q.slots i = some t → t.state = .running → current = some t.id) {i : ℕ} {t : Thread}
    (hi : i < maxThreads) (ht : (schedule q current).2.slots i = some t) (hstate : t.state = .running) :
    (schedule q current).1 = some t.id := by
  rcases schedule_cases q current with ⟨h, -⟩ | ⟨j, v, -, -, hv, -, h⟩
  · rw [h] at ht
    exact absurd hstate (settle_not_running hd hrun hi ht)
  · rw [h] at ht ⊢
    have ht : update (settle q current).slots j _ i = some t := ht
    rw [update_apply] at ht
    split_ifs at ht with hne
    · rw [hv, Option.map_some] at ht
      cases ht
      rfl
    · exact absurd hstate (settle_not_running hd hrun hi ht)

/-- the pick is a thread of the table, and it runs -/
theorem schedule_pick (hd : q.Distinct) {current : Option ℕ} {id : ℕ} (h : (schedule q current).1 = some id) :
    ∃ t, (schedule q current).2.get id = some t ∧ t.state = .running := by
  rcases schedule_cases q current with ⟨hnone, -⟩ | ⟨i, t, -, hi, ht, -, hpick⟩
  · rw [hnone] at h
    cases h
  · have hdist : ((settle q current).modifySlot i (Thread.setState .running)).Distinct :=
      hd.congr fun j => (modifySlot_ids (f := Thread.setState .running) (fun _ => rfl) i j).trans (settle_ids q current j)
    have hslot : ((settle q current).modifySlot i (Thread.setState .running)).slots i = some (t.setState .running) := by
      show update (settle q current).slots i _ i = _
      rw [update_self, ht, Option.map_some]
    rw [hpick] at h ⊢
    cases h
    exact ⟨t.setState .running, hdist.get hi hslot, rfl⟩

/-! ## Turns -/

/-- neither blocked nor at its end -/
def Lively (t : Thread) : Prop := t.state ≠ .blocked ∧ t.state ≠ .terminated

theorem Turned.lively {t : Thread} (h : Turned t u) (ht : Lively t) : Lively u := by
  rcases h.state with hs | ⟨-, hs | hs⟩
  · exact ⟨hs ▸ ht.1, hs ▸ ht.2⟩
  · exact ⟨by rw [hs]; nofun, by rw [hs]; nofun⟩
  · exact ⟨by rw [hs]; nofun, by rw [hs]; nofun⟩

theorem Thread.woken_lively {t : Thread} (ht : Lively t) : Lively t.woken := by
  rcases t.woken_state with hs | hs
  · exact ⟨hs ▸ ht.1, hs ▸ ht.2⟩
  · exact ⟨by rw [hs]; nofun, by rw [hs]; nofun⟩

/-- ids are distinct and not 0; only the current thread runs, and it is in the table -/
structure Turns (q : Threads) (current : ℕ) : Prop where
  distinct : q.Distinct
  nonzero : ∀ {i t}, i < maxThreads → q.slots i = some t → t.id ≠ 0
  running : ∀ {i t}, i < maxThreads → q.slots i = some t → t.state = .running → t.id = current
  current : ∃ t, q.get current = some t ∧ Lively t

namespace Turns

variable {current : ℕ}

section

variable (h : Turns q current)

include h

theorem get_nonzero {id : ℕ} {t : Thread} (ht : q.get id = some t) : id ≠ 0 := by
  obtain ⟨i, -, hi, hslot, rfl⟩ := get_some ht
  exact h.nonzero hi hslot

theorem not_running {id : ℕ} {t : Thread} (ht : q.get id = some t) (hne : id ≠ current) : t.state ≠ .running := by
  intro hrun
  obtain ⟨i, -, hi, hslot, rfl⟩ := get_some ht
  exact hne (h.running hi hslot hrun)

/-- a change of one thread that does not make it run or end -/
theorem withThreadMut {f : Thread → Thread} (hf : ∀ t, (f t).id = t.id)
    (hrun : ∀ t, (f t).state = .running → t.state = .running) (hlively : ∀ t, Lively t → Lively (f t)) (id : ℕ) :
    Turns (q.withThreadMut id f) current := by
  refine ⟨h.distinct.congr (withThreadMut_ids hf id), fun {i t} hi ht => ?_, fun {i t} hi ht hstate => ?_, ?_⟩
  · rcases slots_withThreadMut ht with ht | ⟨u, hu, -, rfl⟩
    · exact h.nonzero hi ht
    · rw [hf u]
      exact h.nonzero hi hu
  · rcases slots_withThreadMut ht with ht | ⟨u, hu, -, rfl⟩
    · exact h.running hi ht hstate
    · rw [hf u]
      exact h.running hi hu (hrun u hstate)
  · obtain ⟨t, ht, hl⟩ := h.current
    rw [get_withThreadMut hf, ht]
    split_ifs
    · exact ⟨f t, rfl, hlively t hl⟩
    · exact ⟨t, rfl, hl⟩

theorem wakeThread (id : ℕ) : Turns (wakeThread q id) current := by
  refine h.withThreadMut Thread.woken_id (fun t hrun => ?_) (fun t => Thread.woken_lively) id
  rcases t.woken_state with hs | hs
  · exact hs.symm.trans hrun
  · exact absurd (hs.symm.trans hrun) nofun

theorem sleepThread (id : ℕ) : Turns (sleepThread q id) current :=
  h.withThreadMut (f := Thread.setState .sleeping) (fun _ => rfl) (fun _ hs => nomatch hs)
    (fun _ _ => ⟨nofun, nofun⟩) id

/-- the pick is the current thread then -/
theorem schedule : Turns (schedule q (some current)).2 ((schedule q (some current)).1.getD current) := by
  have hrun : ∀ i t, i < maxThreads → q.slots i = some t → t.state = .running → some current = some t.id :=
    fun i t hi ht hs => by rw [h.running hi ht hs]
  refine ⟨h.distinct.congr (schedule_ids q _), fun {i t} hi ht => ?_, fun {i t} hi ht hs => ?_, ?_⟩
  · have hid := schedule_ids q (some current) i
    rw [ht] at hid
    obtain ⟨u, hu, hid⟩ := Option.map_eq_some_iff.1 hid.symm
    rw [← hid]
    exact h.nonzero hi hu
  · rw [schedule_running h.distinct hrun hi ht hs]
    rfl
  · cases hpick : (Task.schedule q (some current)).1 with
    | some id =>
      obtain ⟨t, ht, hs⟩ := schedule_pick h.distinct hpick
      exact ⟨t, ht, by rw [hs]; nofun, by rw [hs]; nofun⟩
    | none =>
      obtain ⟨t, ht, hl⟩ := h.current
      obtain ⟨u, hu, hturn⟩ := get_schedule (some current) ht
      exact ⟨u, hu, hturn.lively hl⟩

end

end Turns

end SwiftCore.Task
