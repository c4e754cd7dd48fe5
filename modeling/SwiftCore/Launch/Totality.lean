/-
Every function that takes an executable apart, on every file: `exec_with_data`, `execve`, `load_elf_into` and
`list_loadable_segments` (core/syscall/exec.rs, core/task/elf.rs, core/elf/loader.rs).

A call returns if it ends with a value or an error, whatever the functions it calls answer; it does not if a sum
overflows, an index is out of bounds or a pointer misaligned, for then the kernel stops.

- `returns_iff_handled`: all four return exactly for the files that are `Startable` and `Loadable` and whose first
  program header ends in the address space. `execve` always returns.
- `service_scan_overflows`: a service whose section table reaches past the address space, and a file whose first
  program header does.
-/
import SwiftCore.Launch.Execve

namespace SwiftCore.Launch

open Bytes Checked Fallible Elf

/-- every function returns, with every behaviour of the code it calls -/
def Returned (r : Request) (w : World) (a : ExecveArgs) (random : ℕ) : Prop :=
  (∀ (σ : Type) (ops : StartOps σ), ops.Total → ∀ s, Ends (execWithData ops r) s) ∧
    (∀ (π : Type) (ops : PageTableOps π), ops.Total → ∀ s, Ends (execve ops w a) s) ∧
    (∀ (σ : Type) (ops : PageTableOps σ), ops.Total → ∀ table s, Ends (loadElfInto ops table r.data random) s) ∧
    Safe (listLoadableSegments r.data)

/-- **When executables are handled without a panic.** -/
theorem returns_iff_handled (r : Request) (w : World) (a : ExecveArgs) (random : ℕ) :
    Returned r w a random ↔
      Startable r ∧ Loadable r.data random ∧ (IsElf r.data → FirstPhdrEnds r.data) := by
  constructor
  · rintro ⟨hstart, -, hload, hlist⟩
    refine ⟨?_, ?_, (safe_listLoadableSegments r.data).1 hlist⟩
    · exact startable_of_ends (hstart Unit obligingStart obligingStart_total ())
    · exact loadable_of_ends (hload Unit obliging obliging_total 0 ())
  · rintro ⟨hstart, hload, hlist⟩
    refine ⟨?_, ?_, ?_, (safe_listLoadableSegments r.data).2 hlist⟩
    · intro σ ops hops s
      exact ends_of_startable hops hstart
    · intro π ops hops s
      exact ends_execve hops a
    · intro σ ops hops table s
      exact ends_of_loadable hops hload

/-! ## Files that stop the kernel -/

/-- a service whose one section header starts at the last address -/
def badSections : Request := ⟨bareElf 0 0 (2 ^ 64 - 1), text "a.service", text "a.service", [], none, 0⟩

/-- `exec_with_data` overflows on a section table, `list_loadable_segments` on a program header table -/
theorem service_scan_overflows :
    ¬ Ends (execWithData obligingStart badSections) () ∧ ¬ Safe (listLoadableSegments (bareElf (2 ^ 64 - 1) 1 0)) := by
  constructor
  · intro hends
    have hscan : Scannable (bareElf 0 0 (2 ^ 64 - 1)) := by
      apply startable_of_ends hends
      · decide +kernel
      · decide +kernel
      · decide +kernel
      · have hnone : (ehdr badSections.data).ePhnum.toNat = 0 := by decide +kernel
        intro i hi
        omega
      · decide +kernel
    have hsec := (hscan (by decide +kernel) (by decide +kernel) (by decide +kernel)).1
    exact absurd hsec (by decide +kernel)
  · rw [safe_listLoadableSegments]
    intro hends
    exact absurd (hends (by decide +kernel)) (by decide +kernel)

end SwiftCore.Launch
