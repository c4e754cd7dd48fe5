/-
What one thread does to one spin lock that is not reentrant: it takes the lock, gives it back, or hands over the
processor. Taking the lock twice never returns; handing over the processor with the lock taken makes every other thread
that needs it spin.

- `replay_append`: a trace is replayed part by part.
- `replay_locked`: a section under the lock with nothing in it is harmless.
- `locked_fails`: a section under the lock breaks the discipline as soon as its body, well behaved on its own, does
  anything at all to the lock or the processor.
-/
import Mathlib.Tactic

namespace SwiftCore.LockTrace

inductive Event where
  | acquire
  | release
  /-- the processor is given to another thread -/
  | pause
  deriving DecidableEq, Repr

/-- whether the lock is taken after the events; `none`: the discipline is broken on the way -/
def replay : Bool → List Event → Option Bool
  | held, [] => some held
  | false, .acquire :: tr => replay true tr
  | true, .release :: tr => replay false tr
  | false, .pause :: tr => replay false tr
  | _, _ => none

/-- the lock is never taken twice and never kept over a pause -/
def Sound (tr : List Event) : Prop := (replay false tr).isSome
  deriving Decidable

/-- `body` between taking the lock and giving it back -/
def locked (body : List Event) : List Event := .acquire :: body ++ [.release]

/-- a trace that is fine on its own, and leaves the lock free -/
def Free (tr : List Event) : Prop := replay false tr = some false

variable {tr tr' body : List Event}

theorem replay_append (held : Bool) (tr tr' : List Event) :
    replay held (tr ++ tr') = (replay held tr).bind fun held => replay held tr' := by
  induction tr generalizing held with
  | nil => rfl
  | cons e tr ih => cases held <;> cases e <;> simp [replay, ih]

theorem Free.nil : Free [] := rfl

theorem Free.append (h : Free tr) (h' : Free tr') : Free (tr ++ tr') := by
  unfold Free at *
  rw [replay_append, h]
  exact h'

theorem Free.pauses (n : ℕ) : Free (List.replicate n .pause) := by
  induction n with
  | zero => rfl
  | succ n ih => exact ih

theorem replay_locked : Free (locked []) := rfl

theorem Free.flatten {trs : List (List Event)} (h : ∀ tr ∈ trs, Free tr) : Free trs.flatten := by
  induction trs with
  | nil => rfl
  | cons tr trs ih =>
    rw [List.flatten_cons]
    exact (h tr List.mem_cons_self).append (ih fun tr' htr' => h tr' (List.mem_cons_of_mem _ htr'))

theorem Free.sound (h : Free tr) : Sound tr := by simp [Sound, show replay false tr = some false from h]

/-- what is fine on its own can be cut off the front -/
theorem Free.sound_append (h : Free tr) : Sound (tr ++ tr') ↔ Sound tr' := by
  unfold Sound
  rw [replay_append, show replay false tr = some false from h]
  rfl

theorem locked_fails (h : Free body) (hbody : body ≠ []) : replay false (locked body ++ tr) = none := by
  cases body with
  | nil => exact absurd rfl hbody
  | cons e body =>
    cases e with
    | acquire => rfl
    | release => exact absurd h (by simp [Free, replay])
    | pause => rfl

/-- a section under the lock is fine iff its body leaves the lock and the processor alone -/
theorem sound_locked_append (h : Free body) : Sound (locked body ++ tr) ↔ body = [] ∧ Sound tr := by
  by_cases hbody : body = []
  · subst hbody
    rw [replay_locked.sound_append]
    simp
  · simp [Sound, locked_fails h hbody, hbody]

theorem sound_locked (h : Free body) : Sound (locked body) ↔ body = [] := by
  have happend := @sound_locked_append [] body h
  rw [List.append_nil] at happend
  rw [happend]
  exact and_iff_left Free.nil.sound

end SwiftCore.LockTrace
