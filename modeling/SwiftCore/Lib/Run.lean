/-
Runs of a deterministic machine and the induction rules every safety result of the development goes through.

`run step s ops` folds the operations over the state; `Along step ok s ops` says that every operation of the run meets
`ok` in the very state it is applied to.
- `inv_run`: what one step preserves, a whole run preserves.
- `inv_along`: what a step preserves when it meets `ok`, a run of such steps preserves.
- `along_of_inv`: what an invariant says of each step that meets `ok` holds at every step of such a run.
- `along_iff_good`: when a step from a good state is good exactly if it meets `ok`, the same holds of runs.
-/
import Mathlib.Tactic

namespace SwiftCore.Run

variable {σ α : Type*}

/-- the state after a list of operations -/
def run (step : σ → α → σ) (s : σ) (ops : List α) : σ := ops.foldl step s

@[simp] theorem run_nil (step : σ → α → σ) (s : σ) : run step s [] = s := rfl

@[simp] theorem run_cons (step : σ → α → σ) (s : σ) (a : α) (ops : List α) :
    run step s (a :: ops) = run step (step s a) ops := rfl

theorem run_append (step : σ → α → σ) (s : σ) (a b : List α) :
    run step s (a ++ b) = run step (run step s a) b := by
  simp [run, List.foldl_append]

/-- every operation of the run meets `ok` in the state it is applied to -/
def Along (step : σ → α → σ) (ok : σ → α → Prop) : σ → List α → Prop
  | _, [] => True
  | s, a :: ops => ok s a ∧ Along step ok (step s a) ops

instance decidableAlong (step : σ → α → σ) (ok : σ → α → Prop) [∀ s a, Decidable (ok s a)] :
    ∀ s ops, Decidable (Along step ok s ops)
  | _, [] => isTrue trivial
  | s, a :: ops =>
    match inferInstanceAs (Decidable (ok s a)), decidableAlong step ok (step s a) ops with
    | isTrue h, isTrue h' => isTrue ⟨h, h'⟩
    | isFalse h, _ => isFalse fun hc => h hc.1
    | _, isFalse h' => isFalse fun hc => h' hc.2

variable {step : σ → α → σ} {I : σ → Prop} {ok : σ → α → Prop}

/-- **Invariant rule.** What every step preserves holds after every run. -/
theorem inv_run (hstep : ∀ s a, I s → I (step s a)) (s : σ) (ops : List α) (h : I s) : I (run step s ops) := by
  induction ops generalizing s with
  | nil => exact h
  | cons a ops ih => exact ih (step s a) (hstep s a h)

section

variable (hstep : ∀ s a, I s → ok s a → I (step s a))

include hstep

/-- **Guarded invariant rule.** What a step preserves when it meets `ok` holds after every run of such steps. -/
theorem inv_along (s : σ) (ops : List α) (h : I s) (hok : Along step ok s ops) : I (run step s ops) := by
  induction ops generalizing s with
  | nil => exact h
  | cons a ops ih => exact ih (step s a) (hstep s a h hok.1) hok.2

/-- **Guarded step rule.** What an invariant and `ok` say of every step, they say of every step of a run. -/
theorem along_of_inv {good : σ → α → Prop} (hgood : ∀ s a, I s → ok s a → good s a) (s : σ) (ops : List α)
    (h : I s) (hok : Along step ok s ops) : Along step good s ops := by
  induction ops generalizing s with
  | nil => trivial
  | cons a ops ih => exact ⟨hgood s a h hok.1, ih (step s a) (hstep s a h hok.1) hok.2⟩

omit hstep in
theorem along_append_left {s : σ} {a b : List α} (h : Along step ok s (a ++ b)) : Along step ok s a := by
  induction a generalizing s with
  | nil => trivial
  | cons x a ih => exact ⟨h.1, ih h.2⟩

/-- **Exactness rule.** If `ok` steps keep an invariant of good states, and no other step from there ends in a good state,
then the runs of `ok` steps are exactly the runs that stay good. -/
theorem along_iff_good {good : σ → Prop} (hgood : ∀ s, I s → good s)
    (hok : ∀ s a, I s → good (step s a) → ok s a) (s : σ) (ops : List α) (h : I s) :
    Along step ok s ops ↔ ∀ past, past <+: ops → good (run step s past) := by
  constructor
  · intro halong past hpast
    obtain ⟨rest, rfl⟩ := hpast
    exact hgood _ (inv_along hstep s past h (along_append_left halong))
  · intro hall
    induction ops generalizing s with
    | nil => trivial
    | cons a ops ih =>
      have hfirst : ok s a := hok s a h (hall [a] ⟨ops, rfl⟩)
      refine ⟨hfirst, ih (step s a) (hstep s a h hfirst) fun past hpast => ?_⟩
      exact hall (a :: past) (List.cons_prefix_cons.2 ⟨rfl, hpast⟩)

end

end SwiftCore.Run
