/-
Code that reads and writes a state and may fail half-way.

A computation `M σ ε α` returns a value, or an error with whatever it has changed so far, or does not return at all (a
panic, a lock taken twice). `Spec P x Q E` is total about errors: from a state with `P`, a returned value and the state
satisfy `Q`, an error and its state satisfy `E`; of a computation that does not return nothing is said.
- `Spec.bind`, `Spec.ite`, `Spec.mono`, `Spec.attempt`: how triples compose.
- `Spec.forRange`: the rule for counting loops, from what one turn preserves.
- `Keeps g x`: a part of the state that `x` does not change.
`Fails x s` says that `x` ends with an error from `s`; `fails_bind` finds where. `Ends x s` says that `x` returns from
`s` at all; `ends_bind` and `ends_checked` say exactly when.
-/
import SwiftCore.Lib.Checked

namespace SwiftCore.Fallible

universe u

/-- how a computation ends -/
inductive Outcome (ε : Type u) (α : Type u)
  | ok (a : α)
  | err (e : ε)
  | stuck
deriving DecidableEq, Repr

/-- the outcome is a value -/
def Outcome.isOk {ε α : Type u} : Outcome ε α → Bool
  | .ok _ => true
  | _ => false

/-- a computation on a state -/
def M (σ ε : Type u) (α : Type u) : Type u := σ → Outcome ε α × σ

variable {σ ε α β : Type u}

namespace M

/-- continue with the value; errors keep the state they left -/
def bind (x : M σ ε α) (f : α → M σ ε β) : M σ ε β := fun s =>
  match x s with
  | (.ok a, t) => f a t
  | (.err e, t) => (.err e, t)
  | (.stuck, t) => (.stuck, t)

instance : Monad (M σ ε) where
  pure a := fun s => (.ok a, s)
  bind := bind

/-- return an error -/
def fail (e : ε) : M σ ε α := fun s => (.err e, s)

/-- not return -/
def halt : M σ ε α := fun s => (.stuck, s)

/-- a value of the state -/
def gets (f : σ → α) : M σ ε α := fun s => (.ok (f s), s)

/-- a change of the state -/
def modify (f : σ → σ) : M σ ε PUnit := fun s => (.ok ⟨⟩, f s)

/-- the result of a call as a value, error or not -/
def attempt {ε' : Type u} (x : M σ ε α) : M σ ε' (Except ε α) := fun s =>
  match x s with
  | (.ok a, t) => (.ok (.ok a), t)
  | (.err e, t) => (.ok (.error e), t)
  | (.stuck, t) => (.stuck, t)

/-- `if c { x }` -/
def when (c : Prop) [Decidable c] (x : M σ ε PUnit) : M σ ε PUnit := if c then x else pure ⟨⟩

/-- a drop guard: after an error of `x` the cleanup runs, with its own errors ignored -/
def onError (x : M σ ε α) (cleanup : M σ ε PUnit) : M σ ε α := fun s =>
  match x s with
  | (.err e, t) =>
    match cleanup t with
    | (.stuck, u) => (.stuck, u)
    | (_, u) => (.err e, u)
  | r => r

/-- `for i in start..start + n` -/
def forRange (body : ℕ → M σ ε PUnit) : ℕ → ℕ → M σ ε PUnit
  | 0, _ => pure ⟨⟩
  | n + 1, i => do
    body i
    forRange body n (i + 1)

/-- `for i in start..start + n` with a value that each turn hands to the next -/
def foldRange {σ ε α : Type} (body : ℕ → α → M σ ε α) : ℕ → ℕ → α → M σ ε α
  | 0, _, a => pure a
  | n + 1, i, a => do
    let a ← body i a
    foldRange body n (i + 1) a

/-- every error of `x` is the error `e` -/
def errAs {σ ε ε' α : Type} (e : ε') (x : M σ ε α) : M σ ε' α := fun s =>
  match x s with
  | (.ok a, t) => (.ok a, t)
  | (.err _, t) => (.err e, t)
  | (.stuck, t) => (.stuck, t)

/-- a computation on a part of the state -/
def zoom {σ π ε α : Type} (get : σ → π) (set : σ → π → σ) (x : M π ε α) : M σ ε α := fun s =>
  ((x (get s)).1, set s (x (get s)).2)

/-- a checked computation: no value is the error `e`, and what stops it does not return -/
def checked {σ ε α : Type} (e : ε) : Checked.Exec α → M σ ε α
  | .ok a => pure a
  | .absent => fail e
  | .stop _ => halt

end M

/-! ## Running a sequence -/

theorem bind_apply (x : M σ ε α) (f : α → M σ ε β) (s : σ) : (x >>= f) s = M.bind x f s := rfl

@[simp] theorem pure_bind_apply (a : α) (f : α → M σ ε β) (s : σ) : (pure a >>= f) s = f a s := rfl

@[simp] theorem gets_bind_apply (g : σ → α) (f : α → M σ ε β) (s : σ) : (M.gets g >>= f) s = f (g s) s := rfl

@[simp] theorem modify_bind_apply (g : σ → σ) (f : PUnit → M σ ε β) (s : σ) : (M.modify g >>= f) s = f ⟨⟩ (g s) := rfl

variable {x : M σ ε α} {f : α → M σ ε β} {s t : σ} {a : α} {b : β} {e : ε}

theorem ok_bind (h : x s = (.ok a, t)) (f : α → M σ ε β) :
    (x >>= f) s = f a t := by
  rw [bind_apply, M.bind, h]

theorem err_bind (h : x s = (.err e, t)) (f : α → M σ ε β) :
    (x >>= f) s = (.err e, t) := by
  rw [bind_apply, M.bind, h]

theorem stuck_bind (h : x s = (.stuck, t)) (f : α → M σ ε β) :
    (x >>= f) s = (.stuck, t) := by
  rw [bind_apply, M.bind, h]

theorem exists_of_isOk (h : (x s).1.isOk = true) : ∃ a t, x s = (.ok a, t) := by
  rcases hx : x s with ⟨_ | _ | _, t⟩ <;> rw [hx] at h
  · exact ⟨_, t, rfl⟩
  · cases h
  · cases h

/-- a sequence that ends well did so in both parts -/
theorem bind_eq_ok :
    (x >>= f) s = (.ok b, t) ↔ ∃ a u, x s = (.ok a, u) ∧ f a u = (.ok b, t) := by
  rw [bind_apply, M.bind]
  rcases hx : x s with ⟨_ | _ | _, u⟩
  · simp
  · simp
  · simp

/-! ## Computations that return -/

/-- `x` returns from `s`, with a value or an error -/
def Ends (x : M σ ε α) (s : σ) : Prop := (x s).1 ≠ .stuck

theorem ends_bind :
    Ends (x >>= f) s ↔ Ends x s ∧ ∀ a t, x s = (.ok a, t) → Ends (f a) t := by
  unfold Ends
  rw [bind_apply, M.bind]
  rcases hx : x s with ⟨_ | _ | _, t⟩
  · simp
  · simp
  · simp

@[simp] theorem ends_pure (a : α) (s : σ) : Ends (pure a : M σ ε α) s := fun h => nomatch h

@[simp] theorem ends_fail (e : ε) (s : σ) : Ends (M.fail e : M σ ε α) s := fun h => nomatch h

theorem ends_checked {σ ε α : Type} {e : ε} {x : Checked.Exec α} {s : σ} :
    Ends (M.checked e x) s ↔ Checked.Safe x := by
  cases x with
  | ok a => simp [M.checked]
  | absent => simp [M.checked]
  | stop why => simp [M.checked, Ends, M.halt]

theorem checked_ok_bind {σ ε α β : Type} (e : ε) (a : α) (f : α → M σ ε β) : (M.checked e (.ok a) >>= f) = f a := rfl

theorem checked_eq_ok {σ ε α : Type} {e : ε} {x : Checked.Exec α} {s t : σ} {a : α} :
    M.checked e x s = (.ok a, t) ↔ x = .ok a ∧ t = s := by
  cases x with
  | ok b => simp [M.checked, Pure.pure, eq_comm]
  | absent => simp [M.checked, M.fail]
  | stop why => simp [M.checked, M.halt]

@[simp] theorem ends_gets (f : σ → α) (s : σ) : Ends (M.gets f : M σ ε α) s := fun h => nomatch h

@[simp] theorem ends_modify (f : σ → σ) (s : σ) : Ends (M.modify f : M σ ε PUnit) s := fun h => nomatch h

theorem ends_errAs {σ ε ε' α : Type} {e : ε'} {x : M σ ε α} {s : σ} : Ends (M.errAs e x) s ↔ Ends x s := by
  unfold Ends M.errAs
  rcases hx : x s with ⟨_ | _ | _, t⟩
  · simp
  · simp
  · simp

theorem errAs_eq_ok {σ ε ε' α : Type} {e : ε'} {x : M σ ε α} {s t : σ} {a : α} :
    M.errAs e x s = (.ok a, t) ↔ x s = (.ok a, t) := by
  unfold M.errAs
  rcases hx : x s with ⟨_ | _ | _, t⟩
  · simp
  · simp
  · simp

theorem ends_attempt {ε' : Type u} : Ends (M.attempt x : M σ ε' (Except ε α)) s ↔ Ends x s := by
  unfold Ends M.attempt
  rcases hx : x s with ⟨_ | _ | _, t⟩
  · simp
  · simp
  · simp

/-- a guard whose cleanup returns does not change whether the call does -/
theorem ends_onError {cleanup : M σ ε PUnit} (hcleanup : ∀ t, Ends cleanup t) :
    Ends (M.onError x cleanup) s ↔ Ends x s := by
  unfold Ends M.onError
  rcases hx : x s with ⟨_ | _ | _, t⟩
  · simp
  · have hends := hcleanup t
    rcases hc : cleanup t with ⟨_ | _ | _, u⟩
    · simp [hc]
    · simp [hc]
    · exact absurd (congrArg Prod.fst hc) hends
  · simp

/-- a loop whose turns all return does -/
theorem ends_foldRange {σ ε α : Type} {body : ℕ → α → M σ ε α} (h : ∀ i a s, Ends (body i a) s) (n i : ℕ) (a : α)
    (s : σ) : Ends (M.foldRange body n i a) s := by
  induction n generalizing i a s with
  | zero => exact ends_pure _ _
  | succ n ih => exact ends_bind.2 ⟨h i a s, fun b t _ => ih (i + 1) b t⟩

/-- a counting loop returns iff each turn that it comes to does -/
theorem ends_forRange {body : ℕ → M σ ε PUnit} (n i : ℕ) (s : σ) :
    Ends (M.forRange body n i) s ↔
      ∀ k < n, ∀ t, M.forRange body k i s = (.ok ⟨⟩, t) → Ends (body (i + k)) t := by
  induction n generalizing i s with
  | zero => simp [M.forRange]
  | succ n ih =>
    rw [M.forRange, ends_bind]
    constructor
    · rintro ⟨hfirst, hrest⟩ k hk t hpass
      cases k with
      | zero =>
        obtain rfl : s = t := congrArg Prod.snd hpass
        exact hfirst
      | succ k =>
        rw [M.forRange, bind_apply, M.bind] at hpass
        rcases hb : body i s with ⟨_ | _ | _, s'⟩ <;> rw [hb] at hpass
        · have hturn := (ih (i + 1) s').1 (hrest ⟨⟩ s' hb) k (by omega) t hpass
          rwa [Nat.add_right_comm, Nat.add_assoc] at hturn
        · simp at hpass
        · simp at hpass
    · intro h
      refine ⟨h 0 (by omega) s rfl, fun _ s' hb => (ih (i + 1) s').2 fun k hk t hpass => ?_⟩
      have hturn := h (k + 1) (by omega) t (by rw [M.forRange, bind_apply, M.bind, hb]; exact hpass)
      rwa [Nat.add_right_comm, Nat.add_assoc]

/-- a loop that ended well got through each of its turns -/
theorem forRange_turns {body : ℕ → M σ ε PUnit} {n i : ℕ} (h : M.forRange body n i s = (.ok ⟨⟩, t)) :
    ∀ k < n, ∃ u v, body (i + k) u = (.ok ⟨⟩, v) := by
  induction n generalizing i s with
  | zero => exact fun k hk => absurd hk (Nat.not_lt_zero k)
  | succ n ih =>
    intro k hk
    rw [M.forRange, bind_apply, M.bind] at h
    rcases hb : body i s with ⟨_ | _ | _, s'⟩ <;> rw [hb] at h
    · cases k with
      | zero => exact ⟨s, s', hb⟩
      | succ k =>
        obtain ⟨u, v, huv⟩ := ih h k (by omega)
        exact ⟨u, v, by rwa [Nat.add_right_comm, Nat.add_assoc] at huv⟩
    · simp at h
    · simp at h

/-- a loop that hands a value on got through each of its turns -/
theorem foldRange_turns {σ ε α : Type} {body : ℕ → α → M σ ε α} {n i : ℕ} {a b : α} {s t : σ}
    (h : M.foldRange body n i a s = (.ok b, t)) : ∀ k < n, ∃ c d u v, body (i + k) c u = (.ok d, v) := by
  induction n generalizing i a s with
  | zero => exact fun k hk => absurd hk (Nat.not_lt_zero k)
  | succ n ih =>
    intro k hk
    obtain ⟨c, u, hfirst, hrest⟩ := bind_eq_ok.1 h
    cases k with
    | zero => exact ⟨a, c, s, u, hfirst⟩
    | succ k =>
      obtain ⟨c', d, u', v, hturn⟩ := ih hrest k (by omega)
      exact ⟨c', d, u', v, by rwa [Nat.add_right_comm, Nat.add_assoc] at hturn⟩

/-- what each turn hands on if it was handed it, the loop ends with -/
theorem foldRange_inv {σ ε α : Type} {P : α → Prop} {body : ℕ → α → M σ ε α} {n i : ℕ} {a b : α} {s t : σ}
    (hbody : ∀ k < n, ∀ c u d v, body (i + k) c u = (.ok d, v) → P c → P d) (ha : P a)
    (h : M.foldRange body n i a s = (.ok b, t)) : P b := by
  induction n generalizing i a s with
  | zero =>
    cases congrArg Prod.fst h
    exact ha
  | succ n ih =>
    obtain ⟨c, u, hfirst, hrest⟩ := bind_eq_ok.1 h
    have hc : P c := hbody 0 (Nat.succ_pos n) a s c u hfirst ha
    refine ih (fun k hk c' u' d v hturn hp => ?_) hc hrest
    rw [Nat.add_right_comm, Nat.add_assoc] at hturn
    exact hbody (k + 1) (by omega) c' u' d v hturn hp

/-- if each turn succeeds whatever it is handed, and changes nothing, so does the loop -/
theorem foldRange_still {σ ε α : Type} {body : ℕ → α → M σ ε α} {n i : ℕ} {s : σ}
    (h : ∀ k < n, ∀ a, ∃ b, body (i + k) a s = (.ok b, s)) (a : α) : ∃ b, M.foldRange body n i a s = (.ok b, s) := by
  induction n generalizing i a with
  | zero => exact ⟨a, rfl⟩
  | succ n ih =>
    obtain ⟨b, hb⟩ := h 0 (Nat.succ_pos n) a
    rw [Nat.add_zero] at hb
    rw [M.foldRange, ok_bind hb]
    apply ih
    intro k hk c
    have hturn := h (k + 1) (by omega) c
    rwa [Nat.add_right_comm, Nat.add_assoc]

/-- a loop whose turns all succeed without a change succeeds without a change -/
theorem forRange_still {body : ℕ → M σ ε PUnit} {n i : ℕ} (h : ∀ k < n, body (i + k) s = (.ok ⟨⟩, s)) :
    M.forRange body n i s = (.ok ⟨⟩, s) := by
  induction n generalizing i with
  | zero => rfl
  | succ n ih =>
    have hfirst : body i s = (.ok ⟨⟩, s) := h 0 (Nat.succ_pos n)
    rw [M.forRange, ok_bind hfirst]
    apply ih
    intro k hk
    have hturn := h (k + 1) (by omega)
    rwa [Nat.add_right_comm, Nat.add_assoc]

/-! ## Where a computation fails -/

/-- `x` returns an error from `s` -/
def Fails (x : M σ ε α) (s : σ) : Prop := ∃ e t, x s = (.err e, t)

/-- a sequence fails in its first part, or in the rest from where the first part ended -/
theorem fails_bind :
    Fails (x >>= f) s ↔ Fails x s ∨ ∃ a t, x s = (.ok a, t) ∧ Fails (f a) t := by
  unfold Fails
  rw [bind_apply]
  unfold M.bind
  rcases x s with ⟨_ | _ | _, t⟩ <;> simp

@[simp] theorem fails_pure (a : α) (s : σ) : ¬ Fails (pure a : M σ ε α) s := by
  rintro ⟨e, t, h⟩
  cases (Prod.mk.inj h).1

@[simp] theorem fails_fail (e : ε) (s : σ) : Fails (M.fail e : M σ ε α) s := ⟨e, s, rfl⟩

@[simp] theorem fails_gets_bind (g : σ → α) (f : α → M σ ε β) (s : σ) :
    Fails (M.gets g >>= f) s ↔ Fails (f (g s)) s := .rfl

@[simp] theorem fails_pure_bind (a : α) (f : α → M σ ε β) (s : σ) :
    Fails (pure a >>= f) s ↔ Fails (f a) s := .rfl

/-! ## Triples -/

/-- the triple: what holds of a returned value, and what of an error -/
def Spec (P : σ → Prop) (x : M σ ε α) (Q : α → σ → Prop) (E : σ → Prop) : Prop :=
  ∀ s, P s → match x s with
    | (.ok a, t) => Q a t
    | (.err _, t) => E t
    | (.stuck, _) => True

section Rules

variable {P P' : σ → Prop} {E E' : σ → Prop} {x : M σ ε α} {f : α → M σ ε β} {Q Q' : α → σ → Prop}
  {R : β → σ → Prop}

theorem Spec.bind (hx : Spec P x Q E) (hf : ∀ a, Spec (Q a) (f a) R E) : Spec P (x >>= f) R E := by
  intro s hs
  have h := hx s hs
  show match M.bind x f s with
    | (.ok a, t) => R a t
    | (.err _, t) => E t
    | (.stuck, _) => True
  unfold M.bind
  rcases hxs : x s with ⟨_ | _ | _, t⟩ <;> rw [hxs] at h
  · exact hf _ t h
  · exact h
  · trivial

theorem Spec.pure (h : ∀ s, P s → Q a s) : Spec P (Pure.pure a : M σ ε α) Q E := fun s hs => h s hs

theorem Spec.fail (h : ∀ s, P s → E s) : Spec P (M.fail e : M σ ε α) Q E := fun s hs => h s hs

theorem Spec.halt : Spec P (M.halt : M σ ε α) Q E := fun _ _ => trivial

theorem Spec.gets {g : σ → α} (h : ∀ s, P s → Q (g s) s) : Spec P (M.gets g : M σ ε α) Q E := fun s hs => h s hs

theorem Spec.modify {g : σ → σ} {Q : PUnit → σ → Prop} (h : ∀ s, P s → Q ⟨⟩ (g s)) :
    Spec P (M.modify g : M σ ε PUnit) Q E := fun s hs => h s hs

section

variable (hx : Spec P x Q E)

include hx

theorem Spec.mono (hP : ∀ s, P' s → P s) (hQ : ∀ a s, Q a s → Q' a s) (hE : ∀ s, E s → E' s) : Spec P' x Q' E' := by
  intro s hs
  have h := hx s (hP s hs)
  rcases hxs : x s with ⟨_ | _ | _, t⟩ <;> rw [hxs] at h
  · exact hQ _ t h
  · exact hE t h
  · trivial

theorem Spec.post (hQ : ∀ a s, Q a s → Q' a s) (hE : ∀ s, E s → E' s) : Spec P x Q' E' :=
  hx.mono (fun _ hs => hs) hQ hE

theorem Spec.ok (hQ : ∀ a s, Q a s → Q' a s) : Spec P x Q' E := hx.post hQ fun _ hs => hs

theorem Spec.err (hE : ∀ s, E s → E' s) : Spec P x Q E' := hx.post (fun _ _ hs => hs) hE

/-- from a state that meets the precondition -/
theorem Spec.here (hs : P s) : Spec (· = s) x Q E := fun _ h => h ▸ hx s hs

theorem Spec.and (hx' : Spec P x Q' E') : Spec P x (fun a s => Q a s ∧ Q' a s) (fun s => E s ∧ E' s) := by
  intro s hs
  have h := hx s hs
  have h' := hx' s hs
  rcases hxs : x s with ⟨_ | _ | _, t⟩ <;> rw [hxs] at h h'
  · exact ⟨h, h'⟩
  · exact ⟨h, h'⟩
  · trivial

end

theorem Spec.ite {c : Prop} [Decidable c] {y : M σ ε α} (hx : c → Spec P x Q E) (hy : ¬ c → Spec P y Q E) :
    Spec P (if c then x else y) Q E := by
  split_ifs with hc
  · exact hx hc
  · exact hy hc

/-- a check that refuses: the code goes on only where it does not hold -/
theorem Spec.guard {c : Prop} [Decidable c] (hE : ∀ s, P s → E s) (hx : ¬ c → Spec P x Q E) :
    Spec P (if c then M.fail e else x) Q E := Spec.ite (fun _ => Spec.fail hE) hx

/-- the precondition may be looked into -/
theorem Spec.pre (h : ∀ s, P s → Spec (· = s) x Q E) : Spec P x Q E := fun s hs => h s hs s rfl

/-- a fact of the precondition that is not about the state -/
theorem Spec.assume {c : Prop} (h : c → Spec P x Q E) : Spec (fun s => P s ∧ c) x Q E := fun s hs => h hs.2 s hs.1

theorem Spec.when {c : Prop} [Decidable c] {x : M σ ε PUnit} {Q : PUnit → σ → Prop} (hx : c → Spec P x Q E)
    (hskip : ¬ c → ∀ s, P s → Q ⟨⟩ s) : Spec P (M.when c x) Q E :=
  Spec.ite hx fun hc => Spec.pure (hskip hc)

theorem Spec.onError {C : σ → Prop} {cleanup : M σ ε PUnit} (hx : Spec P x Q C)
    (hc : Spec C cleanup (fun _ => E) E) : Spec P (M.onError x cleanup) Q E := by
  intro s hs
  have h := hx s hs
  unfold M.onError
  rcases hxs : x s with ⟨_ | _ | _, t⟩ <;> rw [hxs] at h
  · exact h
  · have h' := hc t h
    dsimp only
    rcases hcs : cleanup t with ⟨_ | _ | _, u⟩
    · rw [hcs] at h'
      exact h'
    · rw [hcs] at h'
      exact h'
    · trivial
  · trivial

/-- a specification from one state on, in terms of the results -/
theorem spec_iff :
    Spec (· = s) x Q E ↔ (∀ a t, x s = (.ok a, t) → Q a t) ∧ ∀ e t, x s = (.err e, t) → E t := by
  constructor
  · intro h
    have h := h s rfl
    refine ⟨fun a t hx => ?_, fun e t hx => ?_⟩
    · rwa [hx] at h
    · rwa [hx] at h
  · rintro ⟨hok, herr⟩ t rfl
    rcases hx : x t with ⟨_ | _ | _, u⟩
    · exact hok _ u hx
    · exact herr _ u hx
    · trivial

/-- a sequence from one state on -/
theorem Spec.step (hx : Spec (· = s) x Q E) (hf : ∀ a t, Q a t → Spec (· = t) (f a) R E) :
    Spec (· = s) (x >>= f) R E := Spec.bind hx fun a => Spec.pre fun t ht => hf a t ht

theorem Spec.ret (h : Q a s) : Spec (· = s) (Pure.pure a : M σ ε α) Q E := Spec.pure fun _ ht => ht ▸ h

theorem Spec.stop (h : E s) : Spec (· = s) (M.fail e : M σ ε α) Q E := Spec.fail fun _ ht => ht ▸ h

theorem Spec.check {c : Prop} [Decidable c] (h : E s) (hx : ¬ c → Spec (· = s) x Q E) :
    Spec (· = s) (if c then M.fail e else x) Q E := Spec.guard (fun _ ht => ht ▸ h) hx

theorem Spec.gets_bind {g : σ → α} (h : Spec (· = s) (f (g s)) R E) : Spec (· = s) (M.gets g >>= f) R E :=
  fun t ht => by subst ht; exact h t rfl

theorem Spec.modify_bind {g : σ → σ} {f : PUnit → M σ ε β} (h : Spec (· = g s) (f ⟨⟩) R E) :
    Spec (· = s) (M.modify g >>= f) R E := fun t ht => by subst ht; exact h (g t) rfl

theorem Spec.attempt {ε' : Type u} {Q : Except ε α → σ → Prop}
    (hx : Spec P x (fun a s => Q (.ok a) s) (fun s => ∀ e, Q (.error e) s)) :
    Spec P (M.attempt x : M σ ε' (Except ε α)) Q E := by
  intro s hs
  have h := hx s hs
  unfold M.attempt
  rcases hxs : x s with ⟨_ | _ | _, t⟩ <;> rw [hxs] at h
  · exact h
  · exact h _
  · trivial

/-- the value of an attempted call is its result -/
theorem Spec.attempt_eq {ε' : Type u} (x : M σ ε α) (s : σ) {E : σ → Prop} :
    Spec (· = s) (M.attempt x : M σ ε' (Except ε α))
      (fun r t => match r with
        | .ok a => x s = (.ok a, t)
        | .error e => x s = (.err e, t)) E := by
  rintro t rfl
  unfold M.attempt
  rcases hx : x t with ⟨_ | _ | _, u⟩
  · rfl
  · rfl
  · trivial

theorem Spec.errAs {σ ε ε' α : Type} {P : σ → Prop} {x : M σ ε α} {Q : α → σ → Prop} {E : σ → Prop} {e : ε'}
    (hx : Spec P x Q E) : Spec P (M.errAs e x) Q E := by
  intro s hs
  have h := hx s hs
  unfold M.errAs
  rcases hxs : x s with ⟨_ | _ | _, t⟩ <;> rw [hxs] at h
  · exact h
  · exact h
  · trivial

/-- a computation on a part of the state puts back what it leaves there -/
theorem Spec.zoom {σ π ε α : Type} {get : σ → π} {set : σ → π → σ} {x : M π ε α} {Q : α → π → Prop} {E : π → Prop}
    {s : σ} (hx : Spec (· = get s) x Q E) :
    Spec (· = s) (M.zoom get set x) (fun a t => ∃ p, Q a p ∧ t = set s p) (fun t => ∃ p, E p ∧ t = set s p) := by
  rintro t rfl
  have h := hx (get t) rfl
  unfold M.zoom
  rcases hxs : x (get t) with ⟨_ | _ | _, p⟩ <;> rw [hxs] at h
  · exact ⟨p, h, rfl⟩
  · exact ⟨p, h, rfl⟩
  · trivial

/-- **Counting loops.** What every turn carries from its index to the next one, the loop carries to the end. -/
theorem Spec.forRange {I : ℕ → σ → Prop} {body : ℕ → M σ ε PUnit} (n i : ℕ)
    (hbody : ∀ j, i ≤ j → j < i + n → Spec (I j) (body j) (fun _ => I (j + 1)) E) :
    Spec (I i) (M.forRange body n i) (fun _ => I (i + n)) E := by
  induction n generalizing i with
  | zero => exact Spec.pure fun s hs => hs
  | succ n ih =>
    refine Spec.bind (hbody i (le_refl i) (by omega)) fun _ => ?_
    have h := ih (i + 1) fun j hj hlt => hbody j (by omega) (by omega)
    rw [Nat.add_right_comm] at h
    exact h

end Rules

/-! ## Parts of the state that stay -/

/-- `x` leaves `g` of the state as it is -/
def Keeps {γ : Type*} (g : σ → γ) (x : M σ ε α) : Prop := ∀ s, g (x s).2 = g s

section Keeps

variable {γ : Type*} {g : σ → γ} {x : M σ ε α}

theorem Keeps.pure (a : α) : Keeps g (Pure.pure a : M σ ε α) := fun _ => rfl

theorem Keeps.fail (e : ε) : Keeps g (M.fail e : M σ ε α) := fun _ => rfl

theorem Keeps.halt : Keeps g (M.halt : M σ ε α) := fun _ => rfl

theorem Keeps.gets (f : σ → α) : Keeps g (M.gets f : M σ ε α) := fun _ => rfl

theorem Keeps.modify {f : σ → σ} (h : ∀ s, g (f s) = g s) : Keeps g (M.modify f : M σ ε PUnit) := h

theorem Keeps.bind (hx : Keeps g x) (hf : ∀ a, Keeps g (f a)) : Keeps g (x >>= f) := by
  intro s
  have h := hx s
  rw [bind_apply]
  unfold M.bind
  rcases hxs : x s with ⟨_ | _ | _, t⟩ <;> rw [hxs] at h
  · exact (hf _ t).trans h
  · exact h
  · exact h

theorem Keeps.ite {c : Prop} [Decidable c] {y : M σ ε α} (hx : Keeps g x) (hy : Keeps g y) :
    Keeps g (if c then x else y) := by
  split_ifs
  exacts [hx, hy]

/-- an attempted call keeps what the call keeps, and does not fail -/
theorem Keeps.spec_attempt {ε' : Type u} (hx : Keeps g x) (s : σ) {E : σ → Prop} :
    Spec (· = s) (M.attempt x : M σ ε' (Except ε α)) (fun _ t => g t = g s) E := by
  rintro t rfl
  have h := hx t
  unfold M.attempt
  rcases hr : x t with ⟨_ | _ | _, u⟩ <;> rw [hr] at h
  · exact h
  · exact h
  · trivial

theorem Keeps.errAs {σ ε ε' α : Type} {γ : Type*} {g : σ → γ} {x : M σ ε α} {e : ε'} (hx : Keeps g x) :
    Keeps g (M.errAs e x) := by
  intro s
  have h := hx s
  unfold M.errAs
  rcases hr : x s with ⟨_ | _ | _, t⟩ <;> rw [hr] at h
  · exact h
  · exact h
  · exact h

theorem Keeps.checked {σ ε α : Type} {γ : Type*} {g : σ → γ} (e : ε) (x : Checked.Exec α) :
    Keeps g (M.checked e x : M σ ε α) := by
  cases x with
  | ok a => exact Keeps.pure a
  | absent => exact Keeps.fail e
  | stop why => exact Keeps.halt

theorem Keeps.foldRange {σ ε α : Type} {γ : Type*} {g : σ → γ} {body : ℕ → α → M σ ε α}
    (hbody : ∀ i a, Keeps g (body i a)) (n i : ℕ) (a : α) : Keeps g (M.foldRange body n i a) := by
  induction n generalizing i a with
  | zero => exact Keeps.pure a
  | succ n ih => exact Keeps.bind (hbody i a) fun b => ih (i + 1) b

theorem Keeps.spec (hg : Keeps g x) (s : σ) : Spec (· = s) x (fun _ t => g t = g s) (fun t => g t = g s) := by
  rintro t rfl
  have h := hg t
  rcases hxs : x t with ⟨_ | _ | _, u⟩ <;> rw [hxs] at h
  · exact h
  · exact h
  · trivial

end Keeps

end SwiftCore.Fallible
