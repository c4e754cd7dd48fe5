/-
Computations that find a value, or fail for reasons outside.

`quiet s t` says that nothing outside fails between the states `s` and `t`. `Computes I quiet x v`: from a state with the
invariant `I`, the computation `x` keeps `I` and ends with the value of `v : Option α`, nothing having failed on the way,
or with an error. It ends with an error only if something failed on the way or `v` is `none`.
- `Computes.bind`, `Computes.ite`: a computation is compared with the same program in `Option`.
- `Yields I quiet x P`: the same for a value that is not determined: it satisfies `P`.
- `Computes.cases`: the two ends of a computation.
-/
import Mathlib.Order.Defs.Unbundled
import SwiftCore.Lib.Fallible

namespace SwiftCore.Fallible

variable {σ ε α β : Type}

def Computes (I : σ → Prop) (quiet : σ → σ → Prop) (x : M σ ε α) (v : Option α) : Prop :=
  ∀ s, I s → I (x s).2 ∧ (∀ u, quiet s u → quiet (x s).2 u) ∧
    match (x s).1 with
    | .ok a => v = some a ∧ quiet s (x s).2
    | .err _ => quiet s (x s).2 → v = none
    | .stuck => False

/-- ends with a value that satisfies `P`, or with an error if something outside fails -/
def Yields (I : σ → Prop) (quiet : σ → σ → Prop) (x : M σ ε α) (P : α → Prop) : Prop :=
  ∀ s, I s → I (x s).2 ∧ (∀ u, quiet s u → quiet (x s).2 u) ∧
    match (x s).1 with
    | .ok a => P a ∧ quiet s (x s).2
    | .err _ => ¬ quiet s (x s).2
    | .stuck => False

variable {I : σ → Prop} {quiet : σ → σ → Prop} {x : M σ ε α} {v : Option α}

/-- a value was found and nothing failed, or there is an error with a reason -/
theorem Computes.cases (hx : Computes I quiet x v) {s : σ} (hs : I s) :
    (∃ a t, x s = (.ok a, t) ∧ I t ∧ (∀ u, quiet s u → quiet t u) ∧ v = some a ∧ quiet s t) ∨
      ∃ e t, x s = (.err e, t) ∧ I t ∧ (∀ u, quiet s u → quiet t u) ∧ (quiet s t → v = none) := by
  obtain ⟨hI, hlater, hresult⟩ := hx s hs
  rcases hxs : x s with ⟨a | e | _, t⟩ <;> rw [hxs] at hI hlater hresult
  · exact .inl ⟨a, t, rfl, hI, hlater, hresult⟩
  · exact .inr ⟨e, t, rfl, hI, hlater, hresult⟩
  · exact hresult.elim

theorem Yields.computes {a : α} (h : Yields I quiet x (· = a)) : Computes I quiet x (some a) := by
  intro s hs
  obtain ⟨hI, hlater, hresult⟩ := h s hs
  refine ⟨hI, hlater, ?_⟩
  generalize (x s).1 = r at hresult ⊢
  cases r with
  | ok b => exact ⟨congrArg some (Eq.symm hresult.1), hresult.2⟩
  | err e => exact fun hq => absurd hq hresult
  | stuck => exact hresult.elim

theorem Computes.ite {c : Prop} [Decidable c] {y : M σ ε α} {w : Option α} (hx : c → Computes I quiet x v)
    (hy : ¬ c → Computes I quiet y w) : Computes I quiet (if c then x else y) (if c then v else w) := by
  split_ifs with hc
  · exact hx hc
  · exact hy hc

theorem Computes.fail (e : ε) : Computes I quiet (M.fail e : M σ ε α) none :=
  fun _ hs => ⟨hs, fun _ hq => hq, fun _ => rfl⟩

/-- a change that `quiet` does not see -/
theorem Yields.modify {g : σ → σ} (hI : ∀ s, I s → I (g s)) (hquiet : ∀ s u, quiet s u → quiet (g s) u)
    (hsame : ∀ s, quiet s (g s)) : Yields I quiet (M.modify g : M σ ε PUnit) fun _ => True :=
  fun s hs => ⟨hI s hs, hquiet s, trivial, hsame s⟩

variable [IsPreorder σ quiet]

theorem Computes.pure (a : α) : Computes I quiet (Pure.pure a : M σ ε α) (some a) :=
  fun s hs => ⟨hs, fun _ hq => hq, rfl, refl_of quiet s⟩

/-- the same from a state reached since `s` without a failure -/
theorem Computes.since (hx : Computes I quiet x v) {s t : σ} (ht : I t) (hlater : ∀ u, quiet s u → quiet t u)
    (hst : quiet s t) :
    I (x t).2 ∧ (∀ u, quiet s u → quiet (x t).2 u) ∧
      match (x t).1 with
      | .ok a => v = some a ∧ quiet s (x t).2
      | .err _ => quiet s (x t).2 → v = none
      | .stuck => False := by
  obtain ⟨a, u, hxt, hI, hlater', hv, hquiet⟩ | ⟨e, u, hxt, hI, hlater', hnone⟩ := hx.cases ht
  · rw [hxt]
    exact ⟨hI, fun w hw => hlater' w (hlater w hw), hv, trans_of quiet hst hquiet⟩
  · rw [hxt]
    exact ⟨hI, fun w hw => hlater' w (hlater w hw), fun hq => hnone (hlater u hq)⟩

theorem Computes.bind {f : α → M σ ε β} {g : α → Option β} (hx : Computes I quiet x v)
    (hf : ∀ a, v = some a → Computes I quiet (f a) (g a)) : Computes I quiet (x >>= f) (v.bind g) := by
  intro s hs
  rw [bind_apply]
  unfold M.bind
  obtain ⟨a, t, hxs, hI, hlater, rfl, hquiet⟩ | ⟨e, t, hxs, hI, hlater, hnone⟩ := hx.cases hs
  · rw [hxs]
    exact (hf a rfl).since hI hlater hquiet
  · rw [hxs]
    refine ⟨hI, hlater, fun hq => ?_⟩
    rw [hnone hq]
    rfl

theorem Yields.gets {g : σ → α} {P : α → Prop} (h : ∀ s, I s → P (g s)) : Yields I quiet (M.gets g : M σ ε α) P :=
  fun s hs => ⟨hs, fun _ hq => hq, h s hs, refl_of quiet s⟩

theorem Yields.bind {f : α → M σ ε β} {P : α → Prop} {v : Option β} (hx : Yields I quiet x P)
    (hf : ∀ a, P a → Computes I quiet (f a) v) : Computes I quiet (x >>= f) v := by
  intro s hs
  obtain ⟨hI, hlater, hresult⟩ := hx s hs
  rw [bind_apply]
  unfold M.bind
  rcases hxs : x s with ⟨a | e | _, t⟩ <;> rw [hxs] at hI hlater hresult
  · exact (hf a hresult.1).since hI hlater hresult.2
  · exact ⟨hI, hlater, fun hq => absurd hq hresult⟩
  · exact hresult.elim

end SwiftCore.Fallible
