/-
Page-table entries: 64-bit words with a frame in bits 12..51 and flags in the others.

`entry f flags` is what `set_addr` and `set_frame` store, `frameOf` and `flagsOf` are `addr` (as a frame number) and
`flags`. A word that was never written is 0 and counts as unused.
-/
import Mathlib.Tactic

namespace SwiftCore.Mem

abbrev Word := BitVec 64

/-! ## Flags -/

namespace Flags

def present : Word := 1#64 <<< 0

def writable : Word := 1#64 <<< 1

def user : Word := 1#64 <<< 2

def noExecute : Word := 1#64 <<< 63

end Flags

/-- the bits of the frame -/
def addrMask : Word := 0x000ffffffffff000#64

variable (e : Word)

/-- `PageTableEntry::flags` -/
def flagsOf : Word := e &&& ~~~addrMask

/-- `PageTableEntry::addr`, as a frame number -/
def frameOf : ℕ := (e &&& addrMask).toNat / 4096

/-- the word `set_addr` stores for a frame number and flags -/
def entry (f : ℕ) (flags : Word) : Word := BitVec.ofNat 64 (f * 4096) ||| flags

/-- `flags().contains(PRESENT)`, and so on -/
def isPresent : Bool := e.getLsbD 0

def isWritable : Bool := e.getLsbD 1

def isUser : Bool := e.getLsbD 2

def isHuge : Bool := e.getLsbD 7

def isNoExecute : Bool := e.getLsbD 63

/-- flags without a frame -/
def OnlyFlags (fl : Word) : Prop := ∀ i, 12 ≤ i → i < 52 → fl.getLsbD i = false

/-! ## Bits of an entry -/

theorem getLsbD_addrMask (i : ℕ) : addrMask.getLsbD i = (decide (12 ≤ i) && decide (i < 52)) := by
  by_cases hi : i < 64
  · interval_cases i <;> decide
  · rw [BitVec.getLsbD_of_ge _ _ (by omega)]
    simp
    omega

theorem getLsbD_flagsOf {i : ℕ} (hi : i < 12 ∨ 52 ≤ i) : (flagsOf e).getLsbD i = e.getLsbD i := by
  by_cases h : i < 64
  · simp only [flagsOf, BitVec.getLsbD_and, BitVec.getLsbD_not, getLsbD_addrMask, h, decide_true, Bool.true_and]
    have : (decide (12 ≤ i) && decide (i < 52)) = false := by
      simp
      omega
    simp [this]
  · rw [BitVec.getLsbD_of_ge _ _ (by omega), BitVec.getLsbD_of_ge _ _ (by omega)]

theorem onlyFlags_flagsOf : OnlyFlags (flagsOf e) := by
  intro i hlow hhigh
  have hi : i < 64 := by omega
  simp [flagsOf, getLsbD_addrMask, hi, hlow, hhigh]

theorem onlyFlags_of_and {fl : Word} (h : fl &&& addrMask = 0) : OnlyFlags fl := by
  intro i hlow hhigh
  have hbit := congrArg (fun w : Word => w.getLsbD i) h
  simpa [getLsbD_addrMask, hlow, hhigh] using hbit

theorem OnlyFlags.or {a b : Word} (ha : OnlyFlags a) (hb : OnlyFlags b) : OnlyFlags (a ||| b) := fun i hlow hhigh => by
  rw [BitVec.getLsbD_or, ha i hlow hhigh, hb i hlow hhigh]
  rfl

theorem OnlyFlags.and {a : Word} (ha : OnlyFlags a) (b : Word) : OnlyFlags (a &&& b) := fun i hlow hhigh => by
  rw [BitVec.getLsbD_and, ha i hlow hhigh, Bool.false_and]

theorem getLsbD_frame (f i : ℕ) : (BitVec.ofNat 64 (f * 4096)).getLsbD i = (decide (i < 64) && (decide (12 ≤ i) &&
    f.testBit (i - 12))) := by
  rw [BitVec.getLsbD_ofNat, show f * 4096 = 2 ^ 12 * f by ring, Nat.testBit_two_pow_mul]

/-- the flag bits of an entry are those of its flags -/
theorem getLsbD_entry {f : ℕ} (hf : f < 2 ^ 40) (fl : Word) {i : ℕ} (hi : i < 12 ∨ 52 ≤ i) :
    (entry f fl).getLsbD i = fl.getLsbD i := by
  rw [entry, BitVec.getLsbD_or, getLsbD_frame]
  rcases hi with hi | hi
  · have : ¬ 12 ≤ i := by omega
    simp [this]
  · have hlarge : f < 2 ^ (i - 12) := lt_of_lt_of_le hf (Nat.pow_le_pow_right (by decide) (by omega))
    simp [Nat.testBit_lt_two_pow hlarge]

/-- the frame of an entry is the one it was made with -/
theorem frameOf_entry {f : ℕ} (hf : f < 2 ^ 40) {fl : Word} (hfl : OnlyFlags fl) : frameOf (entry f fl) = f := by
  have hbits : entry f fl &&& addrMask = BitVec.ofNat 64 (f * 4096) := by
    apply BitVec.eq_of_getLsbD_eq
    intro i hi
    rw [BitVec.getLsbD_and, entry, BitVec.getLsbD_or, getLsbD_frame, getLsbD_addrMask]
    by_cases hlow : 12 ≤ i
    · by_cases hhigh : i < 52
      · simp [hlow, hhigh, hfl i hlow hhigh]
      · have hlarge : f < 2 ^ (i - 12) := lt_of_lt_of_le hf (Nat.pow_le_pow_right (by decide) (by omega))
        simp [hhigh, Nat.testBit_lt_two_pow hlarge]
    · simp [hlow]
  unfold frameOf
  rw [hbits, BitVec.toNat_ofNat, Nat.mod_eq_of_lt (by omega)]
  omega

theorem frameOf_lt : frameOf e < 2 ^ 40 := by
  have hle : (e &&& addrMask).toNat ≤ addrMask.toNat := by
    rw [BitVec.toNat_and]
    exact Nat.and_le_right
  have : addrMask.toNat < 2 ^ 52 := by decide
  unfold frameOf
  omega

/-- an entry with a flag set is in use -/
theorem entry_ne_zero {f : ℕ} (hf : f < 2 ^ 40) {fl : Word} {i : ℕ} (hi : i < 12 ∨ 52 ≤ i)
    (hbit : fl.getLsbD i = true) : entry f fl ≠ 0 := by
  intro h
  have := getLsbD_entry hf fl hi
  rw [h, hbit] at this
  exact absurd this (by simp)

/-! ## Flags of entries the kernel writes -/

section Write

variable {f : ℕ} (hf : f < 2 ^ 40) (fl : Word)

include hf

@[simp] theorem isPresent_entry : isPresent (entry f fl) = isPresent fl := getLsbD_entry hf fl (.inl (by decide))

@[simp] theorem isUser_entry : isUser (entry f fl) = isUser fl := getLsbD_entry hf fl (.inl (by decide))

@[simp] theorem isHuge_entry : isHuge (entry f fl) = isHuge fl := getLsbD_entry hf fl (.inl (by decide))

end Write

/-! ## Flags added to an entry -/

section Or

variable {e extra : Word} (hextra : ∀ i, 3 ≤ i → extra.getLsbD i = false)

include hextra

theorem frameOf_or : frameOf (e ||| extra) = frameOf e := by
  unfold frameOf
  congr 2
  refine BitVec.eq_of_getLsbD_eq fun i hi => ?_
  rw [BitVec.getLsbD_and, BitVec.getLsbD_or, BitVec.getLsbD_and, getLsbD_addrMask]
  by_cases hlow : 12 ≤ i
  · rw [hextra i (by omega), Bool.or_false]
  · simp [hlow]

theorem isHuge_or : isHuge (e ||| extra) = isHuge e := by
  unfold isHuge
  rw [BitVec.getLsbD_or, hextra 7 (by decide), Bool.or_false]

omit hextra in
theorem isPresent_or (h : isPresent e = true) : isPresent (e ||| extra) = true := by
  unfold isPresent at h ⊢
  rw [BitVec.getLsbD_or, h, Bool.true_or]

omit hextra in
theorem or_ne_zero (h : e ≠ 0) : e ||| extra ≠ 0 := by
  intro hz
  refine h (BitVec.eq_of_getLsbD_eq fun i _ => ?_)
  have hzero : (0 : Word).getLsbD i = false := BitVec.getLsbD_zero
  have hbit : (e ||| extra).getLsbD i = (0 : Word).getLsbD i := by rw [hz]
  rw [BitVec.getLsbD_or, hzero] at hbit
  rw [(Bool.or_eq_false_iff.1 hbit).1, hzero]

end Or

end SwiftCore.Mem
