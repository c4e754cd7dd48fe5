/-
A mapper that walks the tables in memory.

`OffsetPageTable` is a parameter of the model. `walker` is one function of each kind that does what its documentation
says, so that concrete runs can be carried out; `walker_documented` shows that the assumptions on the parameter can be
met.
-/
import SwiftCore.Mem.AddressSpace

namespace SwiftCore.Mem

open Fallible

/-- the flags of a page that the tables above it get as well -/
def parentOf (flags : Word) : Word := (flags ||| Flags.present) &&& parentFlags

/-- `map_to` from the table `t` of a level down -/
def walkMapTo (page frame : ℕ) (flags : Word) : ℕ → ℕ → M Machine MapToError PUnit
  | 0, _ => M.halt
  | 1, t => fun σ =>
    if σ.mem t (tableIndex 1 page) = 0 then (.ok ⟨⟩, σ.setEntry t (tableIndex 1 page) (entry frame flags))
    else (.err (.pageAlreadyMapped (frameOf (σ.mem t (tableIndex 1 page)))), σ)
  | n + 2, t => fun σ =>
    let i := tableIndex (n + 2) page
    if σ.mem t i = 0 then
      match σ.alloc.allocateFrame σ.mem with
      | none => (.stuck, σ)
      | some (none, alloc, mem) => (.err .frameAllocationFailed, { σ with alloc, mem })
      | some (some f, alloc, mem) =>
        walkMapTo page frame flags (n + 1) f.number
          (Machine.setEntry { σ with alloc, mem := Function.update mem f.number fun _ => 0 } t i
            (entry f.number (parentOf flags)))
    else if isHuge (σ.mem t i) then (.err .parentEntryHugePage, σ.setEntry t i (σ.mem t i ||| parentOf flags))
    else walkMapTo page frame flags (n + 1) (frameOf (σ.mem t i)) (σ.setEntry t i (σ.mem t i ||| parentOf flags))

/-- the table below an entry -/
def linked (e : Word) : Option ℕ := if e ≠ 0 ∧ isHuge e = false then some (frameOf e) else none

/-- the last table of a page -/
def walkTo (m : PhysMem) (l4 page : ℕ) : Option ℕ := do
  let l3 ← linked (m l4 (tableIndex 4 page))
  let l2 ← linked (m l3 (tableIndex 3 page))
  linked (m l2 (tableIndex 2 page))

def walker : Mapper where
  mapTo l4 page frame flags := walkMapTo page frame flags 4 l4
  unmap l4 page := fun σ =>
    match walkTo σ.mem l4 page with
    | none => (.err .pageNotMapped, σ)
    | some l1 =>
      let e := σ.mem l1 (tableIndex 1 page)
      if isPresent e then (.ok ⟨frameOf e, frameOf_lt e⟩, σ.setEntry l1 (tableIndex 1 page) 0)
      else (.err .pageNotMapped, σ)
  updateFlags l4 page flags := fun σ =>
    match walkTo σ.mem l4 page with
    | none => (.err .pageNotMapped, σ)
    | some l1 =>
      let e := σ.mem l1 (tableIndex 1 page)
      if e ≠ 0 then (.ok ⟨⟩, σ.setEntry l1 (tableIndex 1 page) (entry (frameOf e) flags))
      else (.err .pageNotMapped, σ)

theorem linked_eq_some {e : Word} {f : ℕ} (h : linked e = some f) : Link e f := by
  unfold linked at h
  split_ifs at h with hc
  exact ⟨hc.1, hc.2, Option.some.inj h⟩

theorem walkTo_eq_some {m : PhysMem} {l4 page l1 : ℕ} (h : walkTo m l4 page = some l1) : Walk m l4 page l1 := by
  unfold walkTo at h
  simp only [Option.bind_eq_bind, Option.bind_eq_some_iff] at h
  obtain ⟨l3, h4, l2, h3, h2⟩ := h
  exact ⟨l3, l2, linked_eq_some h4, linked_eq_some h3, linked_eq_some h2⟩

theorem parentOf_and (flags : Word) : parentOf flags &&& parentFlags = parentOf flags := by
  unfold parentOf
  rw [BitVec.and_assoc, BitVec.and_self]

theorem isPresent_parentOf (flags : Word) : isPresent (parentOf flags) = true := by
  unfold isPresent parentOf
  rw [BitVec.getLsbD_and, BitVec.getLsbD_or, show Flags.present.getLsbD 0 = true from rfl, Bool.or_true,
    show parentFlags.getLsbD 0 = true from by decide]
  rfl

theorem walkMapTo_mapsTo {page frame k t : ℕ} {flags : Word} {σ τ : Machine} {r : Outcome MapToError PUnit}
    (h : walkMapTo page frame flags k t σ = (r, τ)) (hr : r ≠ .stuck) : MapsTo page frame flags k t σ r τ := by
  induction k using Nat.strong_induction_on generalizing t σ with
  | _ k ih =>
    match k with
    | 0 => exact absurd (Prod.mk.inj h).1.symm hr
    | 1 =>
      unfold walkMapTo at h
      split_ifs at h with hz
      · obtain ⟨rfl, rfl⟩ := Prod.mk.inj h
        exact .page hz
      · obtain ⟨rfl, rfl⟩ := Prod.mk.inj h
        exact .mapped hz
    | n + 2 =>
      unfold walkMapTo at h
      dsimp only at h
      split_ifs at h with hz hh
      · rcases hcall : σ.alloc.allocateFrame σ.mem with _ | ⟨_ | f, alloc, mem⟩ <;> rw [hcall] at h
        · exact absurd (Prod.mk.inj h).1.symm hr
        · obtain ⟨rfl, rfl⟩ := Prod.mk.inj h
          exact .noFrame hz hcall
        · exact .grow hz hcall (parentOf_and flags) (isPresent_parentOf flags) (ih (n + 1) (by omega) h)
      · obtain ⟨rfl, rfl⟩ := Prod.mk.inj h
        exact .huge hh (parentOf_and flags)
      · exact .down ⟨hz, by simpa using hh, rfl⟩ (parentOf_and flags) (ih (n + 1) (by omega) h)

/-- an operation on the last table of a page succeeds there, or changes nothing -/
theorem last_cases {E α : Type} {last : Option ℕ} {c : ℕ → Prop} [DecidablePred c] {a : ℕ → α} {g : ℕ → Machine} {e : E}
    {r : Outcome E α} {σ τ : Machine}
    (h : (match last with
      | none => (.err e, σ)
      | some l1 => if c l1 then (.ok (a l1), g l1) else (.err e, σ)) = (r, τ)) :
    (∃ l1, last = some l1 ∧ c l1 ∧ r = .ok (a l1) ∧ g l1 = τ) ∨ r = .err e ∧ τ = σ := by
  cases last with
  | none => exact .inr ⟨(Prod.mk.inj h).1.symm, (Prod.mk.inj h).2.symm⟩
  | some l1 =>
    dsimp only at h
    split_ifs at h with hc
    · exact .inl ⟨l1, rfl, hc, (Prod.mk.inj h).1.symm, (Prod.mk.inj h).2⟩
    · exact .inr ⟨(Prod.mk.inj h).1.symm, (Prod.mk.inj h).2.symm⟩

/-- **The assumptions can be met.** -/
theorem walker_documented : walker.Documented where
  mapTo h hr := walkMapTo_mapsTo h hr
  unmap h := by
    rcases last_cases h with ⟨l1, hw, hp, hf, rfl⟩ | ⟨hr, -⟩
    · cases hf
      exact ⟨l1, walkTo_eq_some hw, hp, rfl, rfl⟩
    · cases hr
  unmap_err h := by
    rcases last_cases h with ⟨_, _, _, hr, _⟩ | ⟨-, hτ⟩
    · cases hr
    · exact hτ
  updateFlags h := by
    rcases last_cases h with ⟨l1, hw, hp, -, rfl⟩ | ⟨hr, -⟩
    · exact ⟨l1, walkTo_eq_some hw, hp, rfl⟩
    · cases hr
  updateFlags_err h := by
    rcases last_cases h with ⟨_, _, _, hr, _⟩ | ⟨-, hτ⟩
    · cases hr
    · exact hτ

end SwiftCore.Mem
