/-
Lean model of the signal state of a process (`core/task/signal.rs`): an action for each of the 64 signals, the mask of
blocked signals and the set of pending ones. Signal `sig` is bit `sig - 1`.

- `take_some`: the signal taken is pending and unblocked, no lower one is, and only its bit is cleared.
- `take_none`: nothing is taken iff every pending signal is blocked.
-/
import Mathlib.Tactic

namespace SwiftCore.Task

abbrev SigSet := BitVec 64

def sigDfl : UInt64 := 0

def sigIgn : UInt64 := 1

inductive DefaultAction where
  | terminate
  | ignore
  deriving DecidableEq, Repr

def sigkill : ℕ := 9

def sigstop : ℕ := 19

/-- SIGCHLD, SIGCONT, SIGWINCH, SIGSTOP, SIGTSTP, SIGTTIN and SIGTTOU are ignored -/
def defaultAction (sig : ℕ) : DefaultAction :=
  if sig ∈ [17, 18, 28] then .ignore else if sig ∈ [19, 20, 21, 22] then .ignore else .terminate

structure SigAction where
  handler : UInt64
  flags : UInt64
  restorer : UInt64
  mask : SigSet
  deriving DecidableEq

namespace SigAction

def default : SigAction := ⟨sigDfl, 0, 0, 0⟩

def isDefault (a : SigAction) : Bool := a.handler = sigDfl

def isIgnored (a : SigAction) : Bool := a.handler = sigIgn

def hasUserHandler (a : SigAction) : Bool := sigIgn < a.handler

end SigAction

/-- `1u64 << (sig - 1)` -/
def sigBit (sig : ℕ) : SigSet := BitVec.twoPow 64 (sig - 1)

/-- the set contains the signal -/
def SigSet.has (s : SigSet) (sig : ℕ) : Bool := s.getLsbD (sig - 1)

structure SignalState where
  actions : ℕ → SigAction
  mask : SigSet
  pending : SigSet

namespace SignalState

def new : SignalState := ⟨fun _ => SigAction.default, 0, 0⟩

variable (st : SignalState)

def setPending (sig : ℕ) : SignalState :=
  if 1 ≤ sig ∧ sig ≤ 64 then { st with pending := st.pending ||| sigBit sig } else st

/-- `trailing_zeros` of a set that is not empty -/
def lowest (s : SigSet) : Option ℕ := (List.range 64).find? fun i => s.getLsbD i

def takeNextDeliverable : Option (ℕ × SignalState) :=
  let deliverable := st.pending &&& ~~~st.mask
  (lowest deliverable).map fun bit => (bit + 1, { st with pending := st.pending &&& ~~~BitVec.twoPow 64 bit })

def action (sig : ℕ) : SigAction :=
  if 1 ≤ sig ∧ sig ≤ 64 then st.actions (sig - 1) else SigAction.default

def setAction (sig : ℕ) (a : SigAction) : SignalState :=
  if 1 ≤ sig ∧ sig ≤ 64 then { st with actions := Function.update st.actions (sig - 1) a } else st

/-- pending and not blocked -/
def deliverable (sig : ℕ) : Bool := st.pending.has sig && !st.mask.has sig

end SignalState

/-! ## Sets of signals -/

theorem has_sigBit {sig sig' : ℕ} (h : 1 ≤ sig ∧ sig ≤ 64) (h' : 1 ≤ sig') :
    (sigBit sig).has sig' = decide (sig' = sig) := by
  rw [SigSet.has, sigBit, BitVec.getLsbD_twoPow]
  by_cases heq : sig' = sig
  · subst heq
    simp
    omega
  · have hbit : sig - 1 ≠ sig' - 1 := by omega
    simp [heq, hbit]

theorem has_or (s s' : SigSet) (sig : ℕ) : (s ||| s').has sig = (s.has sig || s'.has sig) := BitVec.getLsbD_or

theorem has_and (s s' : SigSet) (sig : ℕ) : (s &&& s').has sig = (s.has sig && s'.has sig) := BitVec.getLsbD_and

theorem has_not {s : SigSet} {sig : ℕ} (h : 1 ≤ sig ∧ sig ≤ 64) : (~~~s).has sig = !s.has sig := by
  simp [SigSet.has, show sig - 1 < 64 by omega]

theorem has_zero (sig : ℕ) : SigSet.has 0 sig = false := by simp [SigSet.has]

namespace SignalState

variable {st st' : SignalState} {sig : ℕ}

theorem lowest_some {s : SigSet} {i : ℕ} (h : lowest s = some i) :
    i < 64 ∧ s.getLsbD i = true ∧ ∀ j < i, s.getLsbD j = false := by
  obtain ⟨hi, hmem, hbefore⟩ := List.find?_range_eq_some.1 h
  exact ⟨List.mem_range.1 hmem, hi, fun j hj => by simpa using hbefore j hj⟩

/-- the lowest pending signal that is not blocked is taken, and its bit is cleared -/
theorem take_some (h : st.takeNextDeliverable = some (sig, st')) :
    (1 ≤ sig ∧ sig ≤ 64) ∧ st.deliverable sig = true ∧
      (∀ sig', 1 ≤ sig' → sig' < sig → st.deliverable sig' = false) ∧
      st' = { st with pending := st.pending &&& ~~~sigBit sig } := by
  obtain ⟨bit, hbit, heq⟩ := Option.map_eq_some_iff.1 h
  cases heq
  obtain ⟨hlt, hset, hbefore⟩ := lowest_some hbit
  have hiff : ∀ sig', 1 ≤ sig' → sig' ≤ 64 →
      st.deliverable sig' = (st.pending &&& ~~~st.mask).getLsbD (sig' - 1) := by
    intro sig' hlo hhi
    have hand := has_and st.pending (~~~st.mask) sig'
    rw [has_not ⟨hlo, hhi⟩] at hand
    exact hand.symm
  refine ⟨⟨by omega, by omega⟩, ?_, fun sig' hlo hsig' => ?_, rfl⟩
  · rw [hiff (bit + 1) (by omega) (by omega)]
    exact hset
  · rw [hiff sig' hlo (by omega)]
    exact hbefore (sig' - 1) (by omega)

/-- nothing is taken only where every pending signal is blocked -/
theorem take_none (h : st.takeNextDeliverable = none) (hsig : 1 ≤ sig ∧ sig ≤ 64) : st.deliverable sig = false := by
  have hlowest : lowest (st.pending &&& ~~~st.mask) = none := by
    simpa [takeNextDeliverable] using h
  have hnone := List.find?_eq_none.1 hlowest (sig - 1) (List.mem_range.2 (by omega))
  have hand := has_and st.pending (~~~st.mask) sig
  rw [has_not hsig] at hand
  rw [deliverable, ← hand]
  exact Bool.eq_false_iff.2 hnone

theorem has_setPending (hsig : 1 ≤ sig ∧ sig ≤ 64) {sig' : ℕ} (h' : 1 ≤ sig') :
    (st.setPending sig).pending.has sig' = (st.pending.has sig' || decide (sig' = sig)) := by
  rw [setPending, if_pos hsig, has_or, has_sigBit hsig h']

theorem has_clear (hsig : 1 ≤ sig ∧ sig ≤ 64) {sig' : ℕ} (h' : 1 ≤ sig' ∧ sig' ≤ 64) :
    (st.pending &&& ~~~sigBit sig).has sig' = (st.pending.has sig' && !decide (sig' = sig)) := by
  rw [has_and, has_not h', has_sigBit hsig h'.1]

end SignalState

end SwiftCore.Task
