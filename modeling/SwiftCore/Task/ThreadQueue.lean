/-
Lean model of the thread table (`core/task/thread.rs`, `ThreadQueue`): `maxThreads` slots, each free or occupied by one
thread, and a generation for each slot that advances when a thread moves in.

Only the thread's id is kept: no function modelled here reads another field of `Thread`.
-/
import Mathlib.Tactic

namespace SwiftCore.Task

open Function

def maxThreads : ℕ := 64

structure ThreadQueue where
  threads : ℕ → Option ℕ
  slotGenerations : ℕ → ℕ
  count : ℕ

namespace ThreadQueue

def new : ThreadQueue := ⟨fun _ => none, fun _ => 0, 0⟩

/-- `wrapping_add(1)`, skipping 0 -/
def nextGeneration (g : ℕ) : ℕ := if (g + 1) % 2 ^ 64 = 0 then 1 else (g + 1) % 2 ^ 64

/-- the slot `push` uses -/
def freeSlot (q : ThreadQueue) : Option ℕ :=
  if maxThreads ≤ q.count then none else (List.range maxThreads).find? fun i => (q.threads i).isNone

def push (q : ThreadQueue) (tid : ℕ) : Option ℕ × ThreadQueue :=
  match q.freeSlot with
  | none => (none, q)
  | some i =>
    (some tid, { q with
      threads := update q.threads i (some tid)
      slotGenerations := update q.slotGenerations i (nextGeneration (q.slotGenerations i))
      count := q.count + 1 })

def slotIndex (q : ThreadQueue) (tid : ℕ) : Option ℕ :=
  (List.range maxThreads).find? fun i => q.threads i = some tid

def slotIndexAndGeneration (q : ThreadQueue) (tid : ℕ) : Option (ℕ × ℕ) :=
  (q.slotIndex tid).map fun i => (i, q.slotGenerations i)

def remove (q : ThreadQueue) (tid : ℕ) : Option ℕ × ThreadQueue :=
  match q.slotIndex tid with
  | none => (none, q)
  | some i => (some tid, { q with threads := update q.threads i none, count := q.count - 1 })

/-! ## Lookup -/

variable {q : ThreadQueue} {tid i : ℕ}

theorem slotIndex_some (h : q.slotIndex tid = some i) : i < maxThreads ∧ q.threads i = some tid := by
  have hmem := List.mem_of_find?_eq_some h
  exact ⟨List.mem_range.1 hmem, by simpa using List.find?_some h⟩

theorem slotIndexAndGeneration_some {g : ℕ} (h : q.slotIndexAndGeneration tid = some (i, g)) :
    i < maxThreads ∧ q.threads i = some tid ∧ q.slotGenerations i = g := by
  obtain ⟨j, hj, heq⟩ := Option.map_eq_some_iff.1 h
  cases heq
  exact ⟨(slotIndex_some hj).1, (slotIndex_some hj).2, rfl⟩

/-! ## What an update leaves in a slot -/

/-- after `push` a slot is the one chosen, with the new thread, or as before -/
theorem push_threads {t : ℕ} (h : (q.push tid).2.threads i = some t) :
    q.freeSlot = some i ∨ (q.threads i = some t ∧ (q.push tid).2.slotGenerations i = q.slotGenerations i) := by
  unfold push at h ⊢
  cases hf : q.freeSlot with
  | none =>
    rw [hf] at h
    exact .inr ⟨h, rfl⟩
  | some j =>
    rw [hf] at h
    rcases eq_or_ne i j with rfl | hij
    · exact .inl rfl
    · refine .inr ⟨(update_of_ne hij _ _).symm.trans h, ?_⟩
      exact update_of_ne hij _ _

theorem remove_threads {t : ℕ} (h : (q.remove tid).2.threads i = some t) : q.threads i = some t := by
  unfold remove at h
  cases hs : q.slotIndex tid with
  | none => rwa [hs] at h
  | some j =>
    rw [hs] at h
    rcases eq_or_ne i j with rfl | hij
    · simp at h
    · exact (update_of_ne hij _ _).symm.trans h

theorem remove_slotGenerations (q : ThreadQueue) (tid : ℕ) :
    (q.remove tid).2.slotGenerations = q.slotGenerations := by
  unfold remove
  cases q.slotIndex tid <;> rfl

end ThreadQueue

end SwiftCore.Task
