/-
Numbers as little-endian bytes, and memory as bytes by address.

- `ofLe_leBytes`: the number is read back from its bytes.
- `load_store`: what was stored is loaded again, in parts by `load_part`; `store_of_lt`, `store_of_ge`: nothing else changes.
-/
import Mathlib.Tactic

namespace SwiftCore.Bytes

/-- the `w` low bytes of a number, the lowest first -/
def leBytes : ℕ → ℕ → List UInt8
  | 0, _ => []
  | w + 1, n => UInt8.ofNat (n % 256) :: leBytes w (n / 256)

def ofLe : List UInt8 → ℕ
  | [] => 0
  | b :: bs => b.toNat + 256 * ofLe bs

@[simp] theorem length_leBytes (w n : ℕ) : (leBytes w n).length = w := by
  induction w generalizing n with
  | zero => rfl
  | succ w ih => simp [leBytes, ih]

theorem ofLe_leBytes (w n : ℕ) : ofLe (leBytes w n) = n % 256 ^ w := by
  induction w generalizing n with
  | zero => simp [leBytes, ofLe, Nat.mod_one]
  | succ w ih =>
    have hbyte : (UInt8.ofNat (n % 256)).toNat = n % 256 := by simp
    rw [leBytes, ofLe, ih, hbyte, pow_succ, Nat.mul_comm (256 ^ w), Nat.mod_mul]

/-- the number in `w` bytes at `offset` -/
def field (bs : List UInt8) (offset w : ℕ) : ℕ := ofLe ((bs.drop offset).take w)

/-! ## Memory -/

abbrev Memory := ℕ → UInt8

/-- `bs` written at address `a` -/
def store (mem : Memory) (a : ℕ) (bs : List UInt8) : Memory :=
  fun i => if a ≤ i then (bs[i - a]?).getD (mem i) else mem i

def load (mem : Memory) (a n : ℕ) : List UInt8 := (List.range n).map fun i => mem (a + i)

variable {mem mem' : Memory} {a i n : ℕ} {bs : List UInt8}

theorem store_of_lt (h : i < a) : store mem a bs i = mem i := if_neg (Nat.not_le.2 h)

theorem store_of_ge (h : a + bs.length ≤ i) : store mem a bs i = mem i := by
  have hnone : bs[i - a]? = none := List.getElem?_eq_none (by omega)
  rw [store, if_pos (by omega), hnone, Option.getD_none]

theorem store_at {k : ℕ} (h : k < bs.length) : store mem a bs (a + k) = bs[k] := by
  simp [store, h]

theorem load_store (mem : Memory) (a : ℕ) (bs : List UInt8) : load (store mem a bs) a bs.length = bs := by
  apply List.ext_getElem
  · simp [load]
  · intro k _ hk
    simp [load, store_at hk]

/-- a part of a range -/
theorem load_part {k n' : ℕ} (h : k + n ≤ n') : load mem (a + k) n = ((load mem a n').drop k).take n := by
  apply List.ext_getElem
  · simp [load]
    omega
  · intro i _ _
    simp [load, Nat.add_assoc]

theorem load_congr (h : ∀ i, a ≤ i → i < a + n → mem i = mem' i) : load mem a n = load mem' a n := by
  apply List.map_congr_left
  intro i hi
  have hlt := List.mem_range.1 hi
  exact h (a + i) (by omega) (by omega)

end SwiftCore.Bytes
