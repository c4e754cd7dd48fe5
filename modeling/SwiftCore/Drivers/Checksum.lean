/-
The checksum of the IP and ICMP headers (drivers/net/src/main.rs: write_be16, checksum16, as send_icmp_echo uses them).

A 32-bit sum wraps around, its carries are folded back until it fits 16 bits, and its complement is the checksum.
- `foldCarries_eq`: the folding loop ends with the residue modulo 65535.
- `checksum_laws`: a checksum written into its field checks, is the ones-complement one and ignores the words' order.
-/
import Mathlib.Tactic

namespace SwiftCore.Drivers.Checksum

/-! ## Model -/

/-- what the loop adds: the big-endian words, and the last byte of an odd number shifted by 8 -/
def beWords : List UInt8 → List ℕ
  | [] => []
  | [a] => [a.toNat * 256]
  | a :: b :: rest => (a.toNat * 256 + b.toNat) :: beWords rest

/-- `while (sum >> 16) != 0` -/
def foldCarries (sum : ℕ) : ℕ :=
  if sum / 2 ^ 16 ≠ 0 then foldCarries (sum % 2 ^ 16 + sum / 2 ^ 16) else sum
decreasing_by omega

variable (data : List UInt8)

def checksum16 : ℕ :=
  2 ^ 16 - 1 - foldCarries ((beWords data).foldl (fun sum w => (sum + w) % 2 ^ 32) 0) % 2 ^ 16

/-- `write_be16` at offset `k` -/
def writeBe16 (k value : ℕ) : List UInt8 :=
  (data.set k (UInt8.ofNat (value / 2 ^ 8))).set (k + 1) (UInt8.ofNat value)

/-! ## Specification -/

/-- addition of 16-bit words with an end-around carry -/
def onesAdd (a b : ℕ) : ℕ := if a + b < 2 ^ 16 then a + b else a + b - (2 ^ 16 - 1)

def onesSum (ws : List ℕ) : ℕ := ws.foldl onesAdd 0

/-! ## The loops -/

/-- the residue of a sum; a positive multiple of 65535 has 65535 -/
def residue (sum : ℕ) : ℕ := if sum = 0 then 0 else (sum - 1) % 65535 + 1

theorem residue_lt (sum : ℕ) : residue sum < 2 ^ 16 := by
  unfold residue
  split_ifs <;> omega

theorem foldCarries_eq (sum : ℕ) : foldCarries sum = residue sum := by
  fun_induction foldCarries sum with
  | case1 sum hcarry ih =>
    rw [ih]
    unfold residue
    rw [if_neg (by omega), if_neg (by omega)]
    omega
  | case2 sum hcarry =>
    unfold residue
    split_ifs <;> omega

theorem beWords_lt : ∀ w ∈ beWords data, w < 2 ^ 16 := by
  fun_induction beWords data with
  | case1 => exact nofun
  | case2 a => simpa using show a.toNat * 256 < 65536 by have := a.toNat_lt; omega
  | case3 a b rest ih =>
    have := a.toNat_lt
    have := b.toNat_lt
    exact List.forall_mem_cons.2 ⟨by omega, ih⟩

theorem length_beWords : (beWords data).length = (data.length + 1) / 2 := by
  fun_induction beWords data with
  | case1 | case2 => simp
  | case3 a b rest ih =>
    simp only [List.length_cons, ih]
    omega

theorem foldl_wrapping (ws : List ℕ) (sum : ℕ) :
    ws.foldl (fun sum w => (sum + w) % 2 ^ 32) (sum % 2 ^ 32) = (sum + ws.sum) % 2 ^ 32 := by
  induction ws generalizing sum with
  | nil => rfl
  | cons w ws ih => rw [List.foldl_cons, Nat.mod_add_mod, ih, List.sum_cons, Nat.add_assoc]

/-- below 128 KiB the sum does not wrap around -/
theorem checksum16_eq {data : List UInt8} (hlen : data.length < 131072) :
    checksum16 data = 2 ^ 16 - 1 - residue (beWords data).sum := by
  have hsum := List.sum_le_card_nsmul _ (2 ^ 16 - 1) fun w hw => Nat.le_pred_of_lt (beWords_lt data w hw)
  rw [length_beWords, smul_eq_mul] at hsum
  have hfold := foldl_wrapping (beWords data) 0
  rw [Nat.zero_mod, Nat.zero_add, Nat.mod_eq_of_lt (by omega)] at hfold
  rw [checksum16, hfold, foldCarries_eq, Nat.mod_eq_of_lt (residue_lt _)]

theorem onesSum_eq (ws : List ℕ) (hws : ∀ w ∈ ws, w < 2 ^ 16) (sum : ℕ) :
    ws.foldl onesAdd (residue sum) = residue (sum + ws.sum) := by
  induction ws generalizing sum with
  | nil => rfl
  | cons w ws ih =>
    obtain ⟨hw, hws⟩ := List.forall_mem_cons.1 hws
    have hadd : onesAdd (residue sum) w = residue (sum + w) := by
      unfold onesAdd residue
      split_ifs <;> omega
    rw [List.foldl_cons, hadd, ih hws, List.sum_cons, Nat.add_assoc]

/-- a word written over zeros is added to the sum -/
theorem sum_writeBe16 {data : List UInt8} {j v : ℕ} (hv : v < 2 ^ 16) (hhigh : data[2 * j]? = some 0)
    (hlow : data[2 * j + 1]? = some 0) : (beWords (writeBe16 data (2 * j) v)).sum = (beWords data).sum + v := by
  fun_induction beWords data generalizing j with
  | case1 | case2 => simp at hlow
  | case3 a b rest ih =>
    cases j with
    | zero =>
      obtain rfl : a = 0 := by simpa using hhigh
      obtain rfl : b = 0 := by simpa using hlow
      simp [writeBe16, beWords]
      omega
    | succ j =>
      have hwrite : writeBe16 (a :: b :: rest) (2 * (j + 1)) v = a :: b :: writeBe16 rest (2 * j) v := rfl
      rw [hwrite, beWords, List.sum_cons, ih hhigh hlow, List.sum_cons, ← Nat.add_assoc]

/-- **Internet checksum.** Below 128 KiB: written over a zero field at an even offset, the checksum makes the result's
own 0; it is the complement of the ones-complement sum of the words, and words in another order have the same. -/
theorem checksum_laws {data : List UInt8} (hlen : data.length < 131072) (k : ℕ) (data' : List UInt8) :
    (k % 2 = 0 → data[k]? = some 0 → data[k + 1]? = some 0 → checksum16 (writeBe16 data k (checksum16 data)) = 0) ∧
      checksum16 data = 2 ^ 16 - 1 - onesSum (beWords data) ∧
      (data'.length < 131072 → (beWords data').Perm (beWords data) → checksum16 data' = checksum16 data) := by
  refine ⟨fun hk hhigh hlow => ?_, ?_, fun hlen' hperm => ?_⟩
  · obtain ⟨j, rfl⟩ := Nat.dvd_of_mod_eq_zero hk
    have hlen' : (writeBe16 data (2 * j) (checksum16 data)).length < 131072 := by simpa [writeBe16] using hlen
    have hsum := residue_lt (beWords data).sum
    rw [checksum16_eq hlen', sum_writeBe16 (by rw [checksum16_eq hlen]; omega) hhigh hlow, checksum16_eq hlen]
    unfold residue at hsum ⊢
    split_ifs at hsum ⊢ <;> omega
  · rw [checksum16_eq hlen, onesSum, show (0 : ℕ) = residue 0 from rfl, onesSum_eq _ (beWords_lt data), Nat.zero_add]
  · rw [checksum16_eq hlen', checksum16_eq hlen, hperm.sum_eq]

/-- nine bytes of a header with the checksum field at offset 4 -/
theorem checksum_laws_header :
    checksum16 (writeBe16 [69, 0, 0, 28, 0, 0, 64, 1, 127] 4 (checksum16 [69, 0, 0, 28, 0, 0, 64, 1, 127])) = 0 :=
  (checksum_laws (by decide) 4 []).1 rfl rfl rfl

end SwiftCore.Drivers.Checksum
