/-
Code that checks its arithmetic and may give up.

A computation `Exec α` ends with a value, ends without one (`None`), or is stopped: by an overflow, a division by zero, an
index out of bounds, a misaligned pointer, or because a loop outlives its fuel.
- `Returns x Q`: `x` is not stopped, and a value it ends with satisfies `Q`. `Returns.bind`, `Returns.ite` and the lemmas
  on arithmetic and slices compose it along the code.
- `Returns.loop`: the rule for loops, from an invariant and a measure that each turn makes smaller.
- `Safe x`: `x` is not stopped. `safe_bind` and `safe_forRange` say exactly when a sequence and a counting loop are safe.
-/
import Mathlib.Tactic

namespace SwiftCore.Checked

/-- why a computation is stopped -/
inductive Stop where
  | overflow
  | divZero
  | bounds
  | misaligned
  | fuel
  deriving DecidableEq, Repr

inductive Exec (α : Type) where
  | ok (a : α)
  | absent
  | stop (why : Stop)
  deriving DecidableEq, Repr

variable {α β σ : Type}

namespace Exec

def bind (x : Exec α) (f : α → Exec β) : Exec β :=
  match x with
  | ok a => f a
  | absent => absent
  | stop why => stop why

instance : Monad Exec where
  pure := ok
  bind := bind

/-- the result as a value, `None` or not -/
def attempt : Exec α → Exec (Option α)
  | ok a => ok (some a)
  | absent => ok none
  | stop why => stop why

/-- the other computation where the first ends without a value -/
def orElse (x y : Exec α) : Exec α :=
  match x with
  | ok a => ok a
  | absent => y
  | stop why => stop why

/-- the value, if there is one -/
def toOption : Exec α → Option α
  | ok a => some a
  | _ => none

@[simp] theorem pure_eq (a : α) : (pure a : Exec α) = ok a := rfl
@[simp] theorem ok_bind (a : α) (f : α → Exec β) : (ok a >>= f) = f a := rfl
@[simp] theorem absent_bind (f : α → Exec β) : (absent >>= f) = absent := rfl
@[simp] theorem stop_bind (why : Stop) (f : α → Exec β) : (stop why >>= f) = stop why := rfl
@[simp] theorem attempt_ok (a : α) : attempt (ok a) = ok (some a) := rfl
@[simp] theorem attempt_absent : attempt (absent : Exec α) = ok none := rfl
@[simp] theorem ok_orElse (a : α) (y : Exec α) : orElse (ok a) y = ok a := rfl
@[simp] theorem absent_orElse (y : Exec α) : orElse absent y = y := rfl

theorem bind_bind {γ : Type} (x : Exec α) (f : α → Exec β) (g : β → Exec γ) :
    (x >>= f >>= g) = x >>= fun a => f a >>= g := by
  cases x <;> rfl

theorem toOption_eq_some {x : Exec α} {a : α} : x.toOption = some a ↔ x = ok a := by
  cases x <;> simp [toOption]

theorem bind_eq_ok {x : Exec α} {f : α → Exec β} {b : β} : (x >>= f) = ok b ↔ ∃ a, x = ok a ∧ f a = ok b := by
  cases x <;> simp

/-! ## Arithmetic and slices -/

/-- `a + b` in `w` bits -/
def add (w a b : ℕ) : Exec ℕ := if a + b < 2 ^ w then ok (a + b) else stop .overflow

def sub (a b : ℕ) : Exec ℕ := if b ≤ a then ok (a - b) else stop .overflow

def mul (w a b : ℕ) : Exec ℕ := if a * b < 2 ^ w then ok (a * b) else stop .overflow

def div (a b : ℕ) : Exec ℕ := if b = 0 then stop .divZero else ok (a / b)

def rem (a b : ℕ) : Exec ℕ := if b = 0 then stop .divZero else ok (a % b)

def divCeil (a b : ℕ) : Exec ℕ := if b = 0 then stop .divZero else ok ((a + b - 1) / b)

variable (xs : List α)

/-- `xs[i]` -/
def index (i : ℕ) : Exec α :=
  match xs[i]? with
  | some a => ok a
  | none => stop .bounds

/-- `xs.get(i)` -/
def getAt (i : ℕ) : Exec α :=
  match xs[i]? with
  | some a => ok a
  | none => absent

/-- `&xs[..n]` -/
def sliceTo (n : ℕ) : Exec (List α) := if n ≤ xs.length then ok (xs.take n) else stop .bounds

/-- `xs.get(from..upto)` -/
def getRange (start upto : ℕ) : Exec (List α) :=
  if start ≤ upto ∧ upto ≤ xs.length then ok ((xs.drop start).take (upto - start)) else absent

/-- `&xs[start..upto]` -/
def slice (start upto : ℕ) : Exec (List α) :=
  if start ≤ upto ∧ upto ≤ xs.length then ok ((xs.drop start).take (upto - start)) else stop .bounds

variable {w a b : ℕ}

theorem add_eq (h : a + b < 2 ^ w) : add w a b = ok (a + b) := if_pos h
theorem sub_eq (h : b ≤ a) : sub a b = ok (a - b) := if_pos h
theorem mul_eq (h : a * b < 2 ^ w) : mul w a b = ok (a * b) := if_pos h
theorem div_eq (h : b ≠ 0) : div a b = ok (a / b) := if_neg h
theorem rem_eq (h : b ≠ 0) : rem a b = ok (a % b) := if_neg h
theorem divCeil_eq (h : b ≠ 0) : divCeil a b = ok ((a + b - 1) / b) := if_neg h
theorem sliceTo_eq {xs : List α} {n : ℕ} (h : n ≤ xs.length) : sliceTo xs n = ok (xs.take n) := if_pos h

theorem eq_of_add_ok {c : ℕ} (h : add w a b = ok c) : c = a + b := by
  unfold add at h
  split_ifs at h
  exact (ok.inj h).symm

theorem eq_of_mul_ok {c : ℕ} (h : mul w a b = ok c) : c = a * b := by
  unfold mul at h
  split_ifs at h
  exact (ok.inj h).symm

theorem index_eq {xs : List α} {i : ℕ} (h : i < xs.length) : index xs i = ok xs[i] := by
  rw [index, List.getElem?_eq_getElem h]

/-! ## Loops -/

/-- repeat `body` until it returns a result (`Sum.inr`) -/
def loop (body : σ → Exec (σ ⊕ β)) : ℕ → σ → Exec β
  | 0, _ => stop .fuel
  | fuel + 1, s =>
    match body s with
    | ok (.inl s') => loop body fuel s'
    | ok (.inr b) => ok b
    | absent => absent
    | stop why => stop why

/-- `for i in start..start + n` with a state; `Sum.inr` is a `break` with a value -/
def forRange (body : ℕ → σ → Exec (σ ⊕ β)) : ℕ → ℕ → σ → Exec (σ ⊕ β)
  | 0, _, s => ok (.inl s)
  | n + 1, i, s =>
    match body i s with
    | ok (.inl s') => forRange body n (i + 1) s'
    | ok (.inr b) => ok (.inr b)
    | absent => absent
    | stop why => stop why

end Exec

open Exec

/-! ## Computations that return -/

/-- not stopped, and the value satisfies `Q` -/
def Returns (x : Exec α) (Q : α → Prop) : Prop :=
  match x with
  | ok a => Q a
  | absent => True
  | stop _ => False

variable {x : Exec α} {P Q : α → Prop}

@[simp] theorem returns_ok (a : α) : Returns (ok a) Q ↔ Q a := .rfl
@[simp] theorem returns_absent : Returns (absent : Exec α) Q := trivial

theorem returns_iff : Returns x Q ↔ x = absent ∨ ∃ a, x = ok a ∧ Q a := by
  cases x <;> simp [Returns]

theorem Returns.of_ok {a : α} (h : Returns x Q) (hx : x = ok a) : Q a := by
  rwa [hx] at h

theorem Returns.ne_stop (h : Returns x Q) (why : Stop) : x ≠ stop why := by
  intro hx
  rwa [hx] at h

theorem Returns.mono (h : Returns x P) (hPQ : ∀ a, P a → Q a) : Returns x Q := by
  cases x with
  | ok a => exact hPQ a h
  | absent => trivial
  | stop why => exact h.elim

theorem Returns.bind {f : α → Exec β} {R : β → Prop} (h : Returns x P) (hf : ∀ a, P a → Returns (f a) R) :
    Returns (x >>= f) R := by
  cases x with
  | ok a => exact hf a h
  | absent => trivial
  | stop why => exact h.elim

theorem Returns.attempt (h : Returns x P) : Returns (Exec.attempt x) fun r => ∀ a, r = some a → P a := by
  cases x with
  | ok a =>
    intro a' ha
    obtain rfl : a = a' := by simpa using ha
    exact h
  | absent => simp
  | stop why => exact h.elim

theorem Returns.orElse {y : Exec α} (hx : Returns x Q) (hy : Returns y Q) : Returns (Exec.orElse x y) Q := by
  cases x with
  | ok a => exact hx
  | absent => exact hy
  | stop why => exact hx.elim

theorem returns_getAt (xs : List α) (i : ℕ) : Returns (getAt xs i) fun _ => True := by
  unfold getAt
  split <;> trivial

theorem returns_getRange (xs : List α) (start upto : ℕ) :
    Returns (getRange xs start upto) fun ys => ys.length = upto - start ∧ upto ≤ xs.length := by
  unfold getRange
  split_ifs with h
  · refine ⟨?_, h.2⟩
    rw [List.length_take, List.length_drop]
    omega
  · trivial

variable {s t : σ}

/-- the rule for loops: `I` holds at the head of each turn and `μ` gets smaller -/
theorem Returns.loop {body : σ → Exec (σ ⊕ β)} {R : β → Prop} (I : σ → Prop) (μ : σ → ℕ)
    (hbody : ∀ s, I s → Returns (body s) fun r => Sum.elim (fun s' => I s' ∧ μ s' < μ s) R r)
    {fuel : ℕ} (hI : I s) (hfuel : μ s < fuel) : Returns (Exec.loop body fuel s) R := by
  induction fuel generalizing s with
  | zero => omega
  | succ fuel ih =>
    have hturn := hbody s hI
    unfold Exec.loop
    generalize body s = r at hturn ⊢
    cases r with
    | ok r =>
      cases r with
      | inl s' =>
        obtain ⟨hI', hsmaller⟩ := hturn
        exact ih hI' (by omega)
      | inr b => exact hturn
    | absent => trivial
    | stop why => exact hturn.elim

/-! ## Exactly when a computation is not stopped -/

def Safe (x : Exec α) : Prop := ∀ why, x ≠ stop why

@[simp] theorem safe_ok (a : α) : Safe (ok a) := fun _ h => nomatch h

@[simp] theorem safe_absent : Safe (absent : Exec α) := fun _ h => nomatch h

@[simp] theorem not_safe_stop (why : Stop) : ¬ Safe (stop why : Exec α) := fun h => h why rfl

theorem safe_bind {f : α → Exec β} : Safe (x >>= f) ↔ Safe x ∧ ∀ a, x = ok a → Safe (f a) := by
  cases x with
  | ok a => simp
  | absent => simp
  | stop why => simp

theorem safe_ite {α : Type} {p : Prop} [Decidable p] {x y : Exec α} (hx : Safe x) (hy : Safe y) :
    Safe (if p then x else y) := by
  split_ifs
  · exact hx
  · exact hy

theorem safe_attempt : Safe (Exec.attempt x) ↔ Safe x := by
  cases x with
  | ok a => simp
  | absent => simp
  | stop why => simp [Exec.attempt]

theorem safe_add {w a b : ℕ} : Safe (add w a b) ↔ a + b < 2 ^ w := by
  unfold add
  by_cases h : a + b < 2 ^ w
  · simp [h]
  · simp [h]

theorem safe_slice {xs : List α} {start upto : ℕ} : Safe (slice xs start upto) ↔ start ≤ upto ∧ upto ≤ xs.length := by
  unfold slice
  by_cases h : start ≤ upto ∧ upto ≤ xs.length
  · simp [h]
  · simp [h]

theorem slice_eq {xs : List α} {start upto : ℕ} (h : start ≤ upto) (h' : upto ≤ xs.length) :
    slice xs start upto = ok ((xs.drop start).take (upto - start)) := if_pos ⟨h, h'⟩

section Loops

variable {body : ℕ → σ → Exec (σ ⊕ β)}

theorem forRange_succ_ok {n i : ℕ} {s' : σ} (h : body i s = ok (.inl s')) :
    forRange body (n + 1) i s = forRange body n (i + 1) s' := by
  rw [forRange, h]

/-- a loop that got through a turn got through its first one -/
theorem forRange_first {n i : ℕ} (h : forRange body (n + 1) i s = ok (.inl t)) : ∃ s', body i s = ok (.inl s') := by
  rw [forRange] at h
  cases hb : body i s with
  | ok r =>
    cases r with
    | inl s' => exact ⟨s', rfl⟩
    | inr b => simp [hb] at h
  | absent => simp [hb] at h
  | stop why => simp [hb] at h

/-- a loop that got through `n + 1` turns got through `n` of them and then through the last one -/
theorem forRange_succ_iff {n i : ℕ} :
    forRange body (n + 1) i s = ok (.inl t) ↔
      ∃ s', forRange body n i s = ok (.inl s') ∧ body (i + n) s' = ok (.inl t) := by
  induction n generalizing i s with
  | zero =>
    rw [forRange]
    cases hb : body i s with
    | ok r => cases r <;> simp [forRange, hb]
    | absent => simp [forRange, hb]
    | stop why => simp [forRange, hb]
  | succ n ih =>
    rw [forRange]
    cases hb : body i s with
    | ok r =>
      cases r with
      | inl s' => rw [ih, forRange_succ_ok hb, Nat.add_right_comm, Nat.add_assoc i n 1]
      | inr b => simp [forRange, hb]
    | absent => simp [forRange, hb]
    | stop why => simp [forRange, hb]

/-- the turns behind those that a loop got through -/
theorem forRange_add {m n i : ℕ} (h : forRange body m i s = ok (.inl t)) :
    forRange body (m + n) i s = forRange body n (i + m) t := by
  induction m generalizing i s with
  | zero =>
    obtain rfl : s = t := by simpa [forRange] using h
    rw [Nat.zero_add, Nat.add_zero]
  | succ m ih =>
    obtain ⟨s', hb⟩ := forRange_first h
    rw [forRange_succ_ok hb] at h
    rw [Nat.add_right_comm, forRange_succ_ok hb, ih h, Nat.add_right_comm, Nat.add_assoc]

/-- a loop breaks with `b` iff some turn that it comes to does -/
theorem forRange_eq_break {n i : ℕ} {b : β} : forRange body n i s = ok (.inr b) ↔
    ∃ k < n, ∃ t, forRange body k i s = ok (.inl t) ∧ body (i + k) t = ok (.inr b) := by
  constructor
  · intro h
    induction n generalizing i s with
    | zero => cases h
    | succ n ih =>
      rw [forRange] at h
      cases hb : body i s with
      | ok r =>
        rw [hb] at h
        cases r with
        | inl s' =>
          obtain ⟨k, hk, t, hpass, hbreak⟩ := ih h
          refine ⟨k + 1, by omega, t, by rwa [forRange_succ_ok hb], ?_⟩
          rwa [Nat.add_right_comm, Nat.add_assoc] at hbreak
        | inr b' => exact ⟨0, Nat.succ_pos n, s, rfl, hb.trans h⟩
      | absent =>
        rw [hb] at h
        cases h
      | stop why =>
        rw [hb] at h
        cases h
  · rintro ⟨k, hk, t, hpass, hbreak⟩
    obtain ⟨rest, rfl⟩ : ∃ rest, n = k + (rest + 1) := ⟨n - (k + 1), by omega⟩
    rw [forRange_add hpass, forRange, hbreak]

/-- **Loops.** A counting loop is safe iff each turn that it comes to is. -/
theorem safe_forRange (n i : ℕ) (s : σ) :
    Safe (forRange body n i s) ↔ ∀ k < n, ∀ s', forRange body k i s = ok (.inl s') → Safe (body (i + k) s') := by
  induction n generalizing i s with
  | zero => simp [forRange]
  | succ n ih =>
    constructor
    · intro h k hk s' hs'
      cases k with
      | zero =>
        obtain rfl : s = s' := by simpa [forRange] using hs'
        intro why hwhy
        rw [Nat.add_zero] at hwhy
        exact h why (by rw [forRange, hwhy])
      | succ k =>
        cases hb : body i s with
        | ok r =>
          cases r with
          | inl t =>
            rw [forRange_succ_ok hb] at h hs'
            have hturn := (ih (i + 1) t).1 h k (by omega) s' hs'
            rwa [Nat.add_right_comm, Nat.add_assoc i k 1] at hturn
          | inr b => simp [forRange, hb] at hs'
        | absent => simp [forRange, hb] at hs'
        | stop why => simp [forRange, hb] at hs'
    · intro h
      have hfirst : Safe (body i s) := h 0 (by omega) s rfl
      rw [forRange]
      cases hb : body i s with
      | ok r =>
        cases r with
        | inl t =>
          rw [ih]
          intro k hk s' hs'
          have hturn := h (k + 1) (by omega) s' (by rwa [forRange_succ_ok hb])
          rwa [Nat.add_right_comm, Nat.add_assoc i k 1]
        | inr b => exact safe_ok _
      | absent => exact safe_absent
      | stop why =>
        rw [hb] at hfirst
        exact absurd hfirst (not_safe_stop why)

/-- a loop without a state gets through `n` turns iff each turn goes on -/
theorem forRange_unit_iff {body : ℕ → Unit → Exec (Unit ⊕ β)} {n : ℕ} :
    forRange body n 0 () = ok (.inl ()) ↔ ∀ k < n, body k () = ok (.inl ()) := by
  induction n with
  | zero => simp [forRange]
  | succ n ih =>
    rw [forRange_succ_iff, Nat.forall_lt_succ_right, ← ih, Nat.zero_add]
    exact ⟨fun ⟨_, hn, hb⟩ => ⟨hn, hb⟩, fun ⟨hn, hb⟩ => ⟨(), hn, hb⟩⟩

/-- and it breaks in the first turn that does not go on -/
theorem forRange_unit_break {body : ℕ → Unit → Exec (Unit ⊕ β)} {n k : ℕ} {b : β} (hk : k < n)
    (hpass : ∀ j < k, body j () = ok (.inl ())) (hb : body k () = ok (.inr b)) :
    forRange body n 0 () = ok (.inr b) :=
  forRange_eq_break.2 ⟨k, hk, (), forRange_unit_iff.2 hpass, by rwa [Nat.zero_add]⟩

theorem safe_forRange_unit {body : ℕ → Unit → Exec (Unit ⊕ β)} {n : ℕ} :
    Safe (forRange body n 0 ()) ↔ ∀ k < n, (∀ j < k, body j () = ok (.inl ())) → Safe (body k ()) := by
  simp only [safe_forRange, ← forRange_unit_iff, Nat.zero_add]
  exact ⟨fun h k hk hpass => h k hk () hpass, fun h k hk _ hpass => h k hk hpass⟩

end Loops

end SwiftCore.Checked
