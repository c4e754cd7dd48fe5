/-
Caches of a fixed number of slots, filled in turn.

An entry stays until its slot comes round again. What holds of every entry put in holds of every entry found
(`mem_of_lookup`, `mem_insert`); which entries are left after an eviction does not matter.
-/
import Mathlib.Tactic

namespace SwiftCore.SlotCache

structure Cache (ε : Type) where
  slots : List (Option ε)
  cursor : ℕ

namespace Cache

variable {ε : Type}

def empty (n : ℕ) : Cache ε := ⟨List.replicate n none, 0⟩

variable (c : Cache ε)

/-- the first valid entry that hits -/
def lookup (hit : ε → Bool) : Option ε := c.slots.findSome? fun slot => slot.filter hit

def insert (x : ε) : Cache ε :=
  ⟨c.slots.set (c.cursor % c.slots.length) (some x), (c.cursor + 1) % c.slots.length⟩

/-- all entries made invalid -/
def reset : Cache ε := ⟨c.slots.map fun _ => none, 0⟩

def Mem (x : ε) : Prop := some x ∈ c.slots

theorem mem_of_lookup {c : Cache ε} {hit : ε → Bool} {x : ε} (h : c.lookup hit = some x) : c.Mem x ∧ hit x = true := by
  obtain ⟨slot, hslot, hx⟩ := List.exists_of_findSome?_eq_some h
  obtain ⟨rfl, hhit⟩ := Option.filter_eq_some_iff.1 hx
  exact ⟨hslot, hhit⟩

theorem mem_insert {c : Cache ε} {x y : ε} (h : (c.insert x).Mem y) : y = x ∨ c.Mem y := by
  rcases List.mem_or_eq_of_mem_set h with hmem | heq
  · exact .inr hmem
  · exact .inl (Option.some.inj heq)

theorem not_mem_reset (x : ε) : ¬ c.reset.Mem x := by
  simp [Mem, reset]

theorem not_mem_empty (n : ℕ) (x : ε) : ¬ (empty n).Mem x := by
  simp [Mem, empty]

end Cache

end SwiftCore.SlotCache
