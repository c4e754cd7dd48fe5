/-
Circular buffers. A buffer of `cap` cells is a function from indices; its occupied part is the window of `count` cells
that starts at `head` and wraps at `cap`.

`window` reads that part as a list, so that a buffer operation is an operation on lists: writing the cell behind the
window appends (`window_snoc`), advancing the head drops the first elements (`window_succ`, `window_add`).
-/
import Mathlib.Tactic

namespace SwiftCore.Ring

open Function

variable {α : Type*}

/-- the `count` cells from `head` on, wrapping at `cap` -/
def window (q : ℕ → α) (cap head count : ℕ) : List α := (List.range count).map fun i => q ((head + i) % cap)

variable (q : ℕ → α)

@[simp] theorem window_zero (cap head : ℕ) : window q cap head 0 = [] := rfl

variable (cap head count : ℕ)

@[simp] theorem length_window : (window q cap head count).length = count := by
  simp [window]

/-- the first cell and the rest of the window -/
theorem window_succ :
    window q cap head (count + 1) = q (head % cap) :: window q cap (head + 1) count := by
  simp only [window, List.range_succ_eq_map, List.map_cons, List.map_map, Nat.add_zero]
  congr 1
  apply List.map_congr_left
  intro i _
  simp only [comp]
  congr 2
  omega

/-- only the head modulo the capacity matters -/
theorem window_mod :
    window q cap (head % cap) count = window q cap head count := by
  simp [window, Nat.mod_add_mod]

/-- a window is its first cells and the window behind them -/
theorem window_add (cap head a b : ℕ) :
    window q cap head (a + b) = window q cap head a ++ window q cap (head + a) b := by
  induction a generalizing head with
  | zero => simp
  | succ a ih =>
    rw [Nat.succ_add, window_succ, window_succ, ih, List.cons_append, Nat.add_right_comm, ← Nat.add_assoc]

/-- cells of one window are distinct while it is no longer than the buffer -/
theorem index_ne {cap head i n : ℕ} (hi : i < n) (hn : n < cap) : (head + i) % cap ≠ (head + n) % cap := by
  intro he
  have hmod : head + i ≡ head + n [MOD cap] := he
  exact hi.ne ((hmod.add_left_cancel' head).eq_of_lt_of_lt (hi.trans hn) hn)

/-- writing the cell behind a window that does not fill the buffer appends to it -/
theorem window_snoc (x : α) (h : count < cap) :
    window (update q ((head + count) % cap) x) cap head (count + 1) = window q cap head count ++ [x] := by
  simp only [window, List.range_succ, List.map_append, List.map_cons, List.map_nil, update_self]
  congr 1
  apply List.map_congr_left
  intro i hi
  rw [List.mem_range] at hi
  rw [update_of_ne (index_ne hi h)]

end SwiftCore.Ring
